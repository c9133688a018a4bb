import MarkupTemplate.Markup.Element

namespace MarkupTemplate

/-- A token of markup. Comments and declarations are kept as they are written. -/
inductive Token where
  | text (text : Text)
  | comment (source : Text)
  | declaration (source : Text)
  | opening (name : Text) (attributes : List Attribute) (selfClosing : Bool)
  | closing (name : Text)
deriving DecidableEq, Repr

/-- The name of the element whose content follows a token and is not markup. -/
def Token.rawText? : Token → Option Text
  | .opening name _ false => if isRawTextName name then some name else none
  | _ => none

/-- A letter that may begin the name in a tag. -/
def startsName (c : Char) : Bool :=
  c.isAlpha

/-- A character of the names of elements and attributes. -/
def inName (c : Char) : Bool :=
  !(isTagSpace c || c == '/' || c == '>' || c == '=')

/-- The name at the start of a text and what follows it. -/
def spanName (text : Text) : Text × Text :=
  (text.takeWhile inName, text.dropWhile inName)

/-- The text after the spaces in front of it. -/
def skipSpace (text : Text) : Text :=
  text.dropWhile isTagSpace

theorem length_dropWhile_le {text : Text} (p : Char → Bool) :
    (text.dropWhile p).length ≤ text.length :=
  (List.dropWhile_sublist p).length_le

theorem length_spanName_lt {text : Text} (h : (spanName text).1 ≠ []) :
    (spanName text).2.length < text.length := by
  have hl := congrArg List.length (List.takeWhile_append_dropWhile (p := inName) (l := text))
  have hp := List.length_pos_iff.2 h
  simp only [spanName, List.length_append] at hl hp ⊢
  omega

theorem length_cut?_lt {mark text before after : Text} (hm : mark ≠ [])
    (h : cut? mark text = some (before, after)) : after.length < text.length := by
  have hl := length_of_cut? h
  have hp := List.length_pos_iff.2 hm
  omega

theorem length_lt_of_map_cut? {α : Type} {f : Text × Text → α × Text} {found : α}
    {mark text after : Text} (h : (cut? mark text).map f = some (found, after))
    (hf : ∀ cut, (f cut).2 = cut.2) (hm : mark ≠ []) : after.length < text.length := by
  obtain ⟨cut, hc, he⟩ := Option.map_eq_some_iff.1 h
  have ha : cut.2 = after := by rw [← hf, he]
  exact ha ▸ length_cut?_lt hm hc

/-- The value after the sign of equality: in quotes, or up to a space or the end of the tag. -/
def readValue? (text : Text) : Option (AttributeValue × Text) :=
  match text with
  | [] => none
  | '"' :: rest => (cut? ['"'] rest).map fun (value, after) => (.quoted .double value, after)
  | '\'' :: rest => (cut? ['\''] rest).map fun (value, after) => (.quoted .single value, after)
  | _ =>
    let inValue := fun c => !(isTagSpace c || c == '>')
    some (.unquoted (text.takeWhile inValue), text.dropWhile inValue)

theorem length_readValue?_le {text after : Text} {value : AttributeValue}
    (h : readValue? text = some (value, after)) : after.length ≤ text.length := by
  unfold readValue? at h
  split at h
  next => simp at h
  next rest =>
    have := length_lt_of_map_cut? h (fun _ => rfl) (by simp)
    simp only [List.length_cons]
    omega
  next rest =>
    have := length_lt_of_map_cut? h (fun _ => rfl) (by simp)
    simp only [List.length_cons]
    omega
  next =>
    simp only [Option.some.injEq, Prod.mk.injEq] at h
    rw [← h.2]
    exact length_dropWhile_le _

/-- An attribute at the start of a text. Without a sign of equality after it, spaces apart, it is
bare. -/
def readAttribute? (text : Text) : Option (Attribute × Text) :=
  let (name, rest) := spanName text
  if name.isEmpty then none
  else match skipSpace rest with
    | '=' :: after => (readValue? (skipSpace after)).map fun (value, rest) => (⟨name, value⟩, rest)
    | _ => some (⟨name, .bare⟩, rest)

theorem length_readAttribute?_lt {text after : Text} {attr : Attribute}
    (h : readAttribute? text = some (attr, after)) : after.length < text.length := by
  simp only [readAttribute?] at h
  split at h
  next => simp at h
  next hne =>
    have hn : (spanName text).1 ≠ [] := by simpa using hne
    have hlt := length_spanName_lt hn
    split at h
    next tail hs =>
      obtain ⟨⟨value, rest⟩, hv, he⟩ := Option.map_eq_some_iff.1 h
      simp only [Prod.mk.injEq] at he
      have h1 := length_readValue?_le hv
      have h2 : (skipSpace tail).length ≤ tail.length := length_dropWhile_le _
      have h3 : (skipSpace (spanName text).2).length ≤ (spanName text).2.length :=
        length_dropWhile_le _
      simp only [hs, List.length_cons] at h3
      rw [← he.2]
      omega
    next =>
      simp only [Option.some.injEq, Prod.mk.injEq] at h
      rw [← h.2]
      exact hlt

theorem length_lt_of_skipSpace {text rest : Text} {c : Char} (h : skipSpace text = c :: rest) :
    rest.length < text.length := by
  have hl : (skipSpace text).length ≤ text.length := length_dropWhile_le _
  simp only [h, List.length_cons] at hl
  omega

/-- The rest of a start tag: its attributes and whether it closes itself. A slash elsewhere counts
for nothing. -/
def readAttributes? (text : Text) : Option ((List Attribute × Bool) × Text) :=
  match h : skipSpace text with
  | [] => none
  | '>' :: rest => some (([], false), rest)
  | '/' :: '>' :: rest => some (([], true), rest)
  | '/' :: rest =>
    have : rest.length < text.length := length_lt_of_skipSpace h
    readAttributes? rest
  | c :: rest =>
    have : rest.length < text.length := length_lt_of_skipSpace h
    match ha : readAttribute? (c :: rest) with
    | none => none
    | some (attr, after) =>
      have : after.length ≤ rest.length := Nat.le_of_lt_succ (length_readAttribute?_lt ha)
      (readAttributes? after).map fun ((attributes, selfClosing), rest) =>
        ((attr :: attributes, selfClosing), rest)
termination_by text.length

theorem length_readAttributes?_lt {text after : Text} {found : List Attribute × Bool}
    (h : readAttributes? text = some (found, after)) : after.length < text.length := by
  fun_induction readAttributes? text generalizing found after with
  | case1 => simp at h
  | case2 text rest hs =>
    simp only [Option.some.injEq, Prod.mk.injEq] at h
    exact h.2 ▸ length_lt_of_skipSpace hs
  | case3 text rest hs =>
    have := length_lt_of_skipSpace hs
    simp only [Option.some.injEq, Prod.mk.injEq] at h
    simp only [List.length_cons, h.2] at this
    omega
  | case4 text rest _ hs hlt ih => exact Nat.lt_trans (ih h) hlt
  | case5 => simp at h
  | case6 text c rest _ _ _ hs hlt attr next ha hn ih =>
    obtain ⟨⟨_, tail⟩, hr, he⟩ := Option.map_eq_some_iff.1 h
    simp only [Prod.mk.injEq] at he
    have := ih (he.2 ▸ hr)
    omega

/-- A start tag, after its first character. -/
def readOpening? (text : Text) : Option (Token × Text) :=
  match text with
  | [] => none
  | c :: _ =>
    if startsName c then
      let (name, rest) := spanName text
      (readAttributes? rest).map fun ((attributes, selfClosing), after) =>
        (.opening name attributes selfClosing, after)
    else none

/-- An end tag, after its first two characters. What stands between its name and its end counts
for nothing. -/
def readClosing? (text : Text) : Option (Token × Text) :=
  match text with
  | [] => none
  | c :: _ =>
    if startsName c then
      let (name, rest) := spanName text
      (cut? ['>'] rest).map fun (_, after) => (.closing name, after)
    else none

theorem length_readOpening?_le {text after : Text} {token : Token}
    (h : readOpening? text = some (token, after)) : after.length ≤ text.length := by
  unfold readOpening? at h
  split at h
  next => simp at h
  next c rest =>
    split at h
    next =>
      obtain ⟨⟨⟨_, _⟩, tail⟩, hr, he⟩ := Option.map_eq_some_iff.1 h
      simp only [Prod.mk.injEq] at he
      have h1 := length_readAttributes?_lt hr
      have h2 : ((c :: rest).dropWhile inName).length ≤ (c :: rest).length :=
        length_dropWhile_le _
      rw [← he.2]
      omega
    next => simp at h

theorem length_readClosing?_le {text after : Text} {token : Token}
    (h : readClosing? text = some (token, after)) : after.length ≤ text.length := by
  unfold readClosing? at h
  split at h
  next => simp at h
  next c rest =>
    split at h
    next =>
      have h1 := length_lt_of_map_cut? h (fun _ => rfl) (by simp)
      have h2 : ((c :: rest).dropWhile inName).length ≤ (c :: rest).length :=
        length_dropWhile_le _
      exact Nat.le_trans (Nat.le_of_lt h1) h2
    next => simp at h

/-- A tag, comment or declaration at the start of a text. -/
def readMarkup? (text : Text) : Option (Token × Text) :=
  match text with
  | '<' :: '!' :: '-' :: '-' :: rest =>
    (cut? "-->".toList rest).map fun (inner, after) =>
      (.comment ("<!--".toList ++ inner ++ "-->".toList), after)
  | '<' :: '!' :: rest =>
    (cut? ['>'] rest).map fun (inner, after) => (.declaration ('<' :: '!' :: inner ++ ['>']), after)
  | '<' :: '?' :: rest =>
    (cut? ['>'] rest).map fun (inner, after) => (.declaration ('<' :: '?' :: inner ++ ['>']), after)
  | '<' :: '/' :: rest => readClosing? rest
  | '<' :: rest => readOpening? rest
  | _ => none

theorem length_readMarkup?_lt {text after : Text} {token : Token}
    (h : readMarkup? text = some (token, after)) : after.length < text.length := by
  unfold readMarkup? at h
  split at h
  next rest =>
    have := length_lt_of_map_cut? h (fun _ => rfl) (by decide)
    simp only [List.length_cons]
    omega
  next rest _ =>
    have := length_lt_of_map_cut? h (fun _ => rfl) (by decide)
    simp only [List.length_cons]
    omega
  next rest =>
    have := length_lt_of_map_cut? h (fun _ => rfl) (by decide)
    simp only [List.length_cons]
    omega
  next rest =>
    have := length_readClosing?_le h
    simp only [List.length_cons]
    omega
  next rest _ _ _ _ =>
    have := length_readOpening?_le h
    simp only [List.length_cons]
    omega
  next => simp at h

/-- The content of a raw text element, up to the first end tag whose name begins like that of the
element, and what follows. -/
def spanRawText (name : Text) : Text → Text × Text
  | [] => ([], [])
  | c :: rest =>
    if c == '<' && rest.head? == some '/' && sameName ((rest.drop 1).take name.length) name then
      ([], c :: rest)
    else
      let spanned := spanRawText name rest
      (c :: spanned.1, spanned.2)

theorem append_spanRawText (name text : Text) :
    (spanRawText name text).1 ++ (spanRawText name text).2 = text := by
  induction text with
  | nil => rfl
  | cons c rest ih =>
    rw [spanRawText]
    split
    next => rfl
    next => simp [ih]

/-- Text up to the next tag. -/
def readText (c : Char) (rest : Text) : Token × Text :=
  (.text (c :: rest.takeWhile (· != '<')), rest.dropWhile (· != '<'))

/-- The first token of a text that begins with `c`: markup if there is any, else text. -/
def readToken (c : Char) (rest : Text) : Token × Text :=
  (readMarkup? (c :: rest)).getD (readText c rest)

theorem length_readToken_le (c : Char) (rest : Text) :
    (readToken c rest).2.length ≤ rest.length := by
  unfold readToken
  cases h : readMarkup? (c :: rest) with
  | none => exact length_dropWhile_le _
  | some found =>
    obtain ⟨token, after⟩ := found
    exact Nat.le_of_lt_succ (length_readMarkup?_lt h)

/-- The first token of a text that begins with `c`, where `raw` names the raw text element that the
text stands in. -/
def nextToken (raw : Option Text) (c : Char) (rest : Text) : Token × Text :=
  match raw with
  | none => readToken c rest
  | some name =>
    let content := spanRawText name (c :: rest)
    if content.1.isEmpty then readToken c rest else (.text content.1, content.2)

theorem length_nextToken_le (raw : Option Text) (c : Char) (rest : Text) :
    (nextToken raw c rest).2.length ≤ rest.length := by
  unfold nextToken
  split
  next => exact length_readToken_le c rest
  next name =>
    have hl := congrArg List.length (append_spanRawText name (c :: rest))
    simp only [List.length_append, List.length_cons] at hl
    dsimp only
    split
    next => exact length_readToken_le c rest
    next hne =>
      have hp := List.length_pos_iff.2 (by simpa using hne : (spanRawText name (c :: rest)).1 ≠ [])
      change (spanRawText name (c :: rest)).2.length ≤ rest.length
      omega

/-- The tokens of a text, where `raw` names the raw text element that it stands in. -/
def tokensIn (raw : Option Text) : Text → List Token
  | [] => []
  | c :: rest =>
    match h : nextToken raw c rest with
    | (token, after) =>
      have : after.length ≤ rest.length := by simpa [h] using length_nextToken_le raw c rest
      token :: tokensIn token.rawText? after
termination_by text => text.length

/-- The tokens of a text. -/
def tokens (text : Text) : List Token :=
  tokensIn none text

end MarkupTemplate
