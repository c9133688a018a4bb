import MarkupTemplate.Proofs.Markup.WholeTokens

namespace MarkupTemplate

/-- A text is read as one token, whatever follows it. -/
def ReadsAs (text : Text) (token : Token) : Prop :=
  ∀ after, tokens (text ++ after) = token :: tokensIn token.rawText? after

/-- The last attribute has a value without quotes. -/
def EndsUnquoted (attributes : List Attribute) : Prop :=
  ∃ attr ∈ attributes.getLast?, ∃ text, attr.value = .unquoted text

/-- The attributes of a start tag as they are read: all can be told from what follows, but for an
empty value without quotes, which only the end of the tag can follow. -/
inductive ReadAttributes : List Attribute → Bool → Prop
  | nil (selfClosing : Bool) : ReadAttributes [] selfClosing
  | empty {name : Text} : name ≠ [] → (∀ c ∈ name, inName c = true) →
      ReadAttributes [⟨name, .unquoted []⟩] false
  | cons {attr : Attribute} {attributes : List Attribute} {selfClosing : Bool} : attr.Writable →
      ReadAttributes attributes selfClosing → ReadAttributes (attr :: attributes) selfClosing

theorem notMem_of_cut? {c : Char} {text before after : Text}
    (h : cut? [c] text = some (before, after)) : c ∉ before := by
  induction text generalizing before after with
  | nil => cases h
  | cons d text ih =>
    rw [cut?] at h
    split at h
    next =>
      obtain ⟨rfl, _⟩ := Prod.mk.inj (Option.some.inj h)
      exact List.not_mem_nil
    next hd =>
      split at h
      next => cases h
      next inner rest hc =>
        obtain ⟨rfl, _⟩ := Prod.mk.inj (Option.some.inj h)
        have hne : c ≠ d := by simpa [List.isPrefixOf] using hd
        exact fun hm => (List.mem_cons.mp hm).elim hne (ih hc)

/-- A value that was read can be told from what follows, or is empty at the end of the tag. -/
theorem writable_of_readValue? {text after : Text} {value : AttributeValue}
    (h : readValue? text = some (value, after)) (hs : ∀ c ∈ text.head?, isTagSpace c = false) :
    value.Writable ∨ value = .unquoted [] ∧ after.head? = some '>' := by
  unfold readValue? at h
  split at h
  next => cases h
  next rest =>
    obtain ⟨⟨inner, _⟩, hc, he⟩ := Option.map_eq_some_iff.mp h
    obtain ⟨rfl, _⟩ := Prod.mk.inj he
    exact .inl (notMem_of_cut? hc)
  next rest =>
    obtain ⟨⟨inner, _⟩, hc, he⟩ := Option.map_eq_some_iff.mp h
    obtain ⟨rfl, _⟩ := Prod.mk.inj he
    exact .inl (notMem_of_cut? hc)
  next hnil hdouble hsingle =>
    obtain ⟨rfl, rfl⟩ := Prod.mk.inj (Option.some.inj h)
    obtain ⟨c, text, rfl⟩ := List.exists_cons_of_ne_nil hnil
    cases hc : inValue c with
    | false =>
      have hspace := hs c rfl
      obtain rfl : c = '>' := by simpa [inValue, hspace] using hc
      exact .inr ⟨rfl, rfl⟩
    | true =>
      have hv : (c :: text).takeWhile inValue = c :: text.takeWhile inValue :=
        List.takeWhile_cons_of_pos hc
      change ((AttributeValue.unquoted ((c :: text).takeWhile inValue)).Writable) ∨ _
      refine .inl ⟨?_, fun d hd => List.all_eq_true.mp List.all_takeWhile d hd, fun quote hq => ?_⟩
      · rw [hv]
        exact List.cons_ne_nil _ _
      · rw [hv] at hq
        cases quote with
        | single => exact hsingle text (by rw [Option.some.inj hq]; rfl)
        | double => exact hdouble text (by rw [Option.some.inj hq]; rfl)

theorem head?_skipSpace (text : Text) : ∀ c ∈ (skipSpace text).head?, isTagSpace c = false := by
  intro c hc
  have := List.head?_dropWhile_not isTagSpace text
  rw [← skipSpace, hc] at this
  simpa using this

theorem writable_of_readAttribute? {text after : Text} {attr : Attribute}
    (h : readAttribute? text = some (attr, after)) :
    attr.name ≠ [] ∧ (∀ c ∈ attr.name, inName c = true) ∧
      (attr.value.Writable ∨ attr.value = .unquoted [] ∧ after.head? = some '>') := by
  have hne : (spanName text).1 ≠ [] := by
    intro he
    simp [readAttribute?, he] at h
  have chars : ∀ c ∈ (spanName text).1, inName c = true :=
    fun c hc => List.all_eq_true.mp List.all_takeWhile c hc
  by_cases hequal : ∃ rest, skipSpace (spanName text).2 = '=' :: rest
  · obtain ⟨rest, hrest⟩ := hequal
    rw [readAttribute?_valued rfl hne hrest] at h
    obtain ⟨⟨value, left⟩, hv, he⟩ := Option.map_eq_some_iff.mp h
    obtain ⟨rfl, rfl⟩ := Prod.mk.inj he
    exact ⟨hne, chars, writable_of_readValue? hv (head?_skipSpace rest)⟩
  · rw [readAttribute?_bare rfl hne fun rest he => hequal ⟨rest, he⟩] at h
    obtain ⟨rfl, _⟩ := Prod.mk.inj (Option.some.inj h)
    exact ⟨hne, chars, .inl trivial⟩

theorem readAttributes_of_readAttributes? {text after : Text} {found : List Attribute × Bool}
    (h : readAttributes? text = some (found, after)) : ReadAttributes found.1 found.2 := by
  fun_induction readAttributes? text generalizing found after with
  | case1 => cases h
  | case2 text rest hs =>
    obtain ⟨rfl, _⟩ := Prod.mk.inj (Option.some.inj h)
    exact .nil false
  | case3 text rest hs =>
    obtain ⟨rfl, _⟩ := Prod.mk.inj (Option.some.inj h)
    exact .nil true
  | case4 text rest hend hs _ ih => exact ih h
  | case5 => cases h
  | case6 text c rest hend hself hslash hs _ attr next ha _ ih =>
    obtain ⟨⟨⟨attributes, selfClosing⟩, left⟩, hr, he⟩ := Option.map_eq_some_iff.mp h
    obtain ⟨rfl, _⟩ := Prod.mk.inj he
    obtain ⟨hne, chars, hw | ⟨hv, hend⟩⟩ := writable_of_readAttribute? ha
    · exact .cons ⟨hne, chars, hw⟩ (ih hr)
    · -- the tag ends right behind an empty value without quotes
      obtain ⟨tail, rfl⟩ := List.head?_eq_some_iff.mp hend
      have closing : skipSpace ('>' :: tail) = '>' :: tail := skipSpace_of_head (by simp; decide)
      have ending := readAttributes?_end closing
      obtain ⟨hf, _⟩ := Prod.mk.inj (Option.some.inj (hr.symm.trans ending))
      obtain ⟨rfl, rfl⟩ := Prod.mk.inj hf
      obtain ⟨name, value⟩ := attr
      obtain rfl : value = .unquoted [] := hv
      exact .empty hne chars

theorem readAttributes?_empty {name : Text} (hne : name ≠ [])
    (chars : ∀ c ∈ name, inName c = true) (after : Text) :
    readAttributes? (Attribute.markup ⟨name, .unquoted []⟩ ++ '>' :: after) =
      some (([⟨name, .unquoted []⟩], false), after) := by
  obtain ⟨c, rest, rfl⟩ := List.exists_cons_of_ne_nil hne
  have hc := chars c List.mem_cons_self
  have span : spanName (c :: (rest ++ '=' :: '>' :: after)) = (c :: rest, '=' :: '>' :: after) := by
    rw [← List.cons_append]
    exact spanName_append chars (by simp; decide)
  have equal : skipSpace ('=' :: '>' :: after) = '=' :: '>' :: after :=
    skipSpace_of_head (by simp; decide)
  have last : skipSpace ('>' :: after) = '>' :: after := skipSpace_of_head (by simp; decide)
  have value : readValue? ('>' :: after) = some (.unquoted [], '>' :: after) := rfl
  have read : readAttribute? (c :: (rest ++ '=' :: '>' :: after)) =
      some (⟨c :: rest, .unquoted []⟩, '>' :: after) := by
    rw [readAttribute?_valued span hne equal, last, value]
    rfl
  have written : Attribute.markup ⟨c :: rest, .unquoted []⟩ ++ '>' :: after =
      ' ' :: c :: (rest ++ '=' :: '>' :: after) := by
    simp [Attribute.markup]
  rw [written, readAttributes?_space hc read, readAttributes?_end last]
  rfl

namespace ReadAttributes

variable {attributes : List Attribute} {selfClosing : Bool}

theorem names (h : ReadAttributes attributes selfClosing) :
    ∀ attr ∈ attributes, attr.name ≠ [] ∧ ∀ c ∈ attr.name, inName c = true := by
  induction h with
  | nil => exact fun _ ha => absurd ha List.not_mem_nil
  | empty hne chars =>
    intro attr ha
    rw [List.mem_singleton.mp ha]
    exact ⟨hne, chars⟩
  | cons hattr _ ih => exact List.forall_mem_cons.mpr ⟨⟨hattr.name_ne, hattr.name_chars⟩, ih⟩

theorem writable (h : ReadAttributes attributes true) : ∀ attr ∈ attributes, attr.Writable := by
  generalize hs : true = selfClosing at h
  induction h with
  | nil => exact fun _ ha => absurd ha List.not_mem_nil
  | empty => cases hs
  | cons hattr _ ih => exact List.forall_mem_cons.mpr ⟨hattr, ih hs⟩

/-- Attributes that were read are read back, if no slash follows a value without quotes. -/
theorem readAttributes?_written (h : ReadAttributes attributes selfClosing)
    (hs : ¬ (selfClosing = true ∧ EndsUnquoted attributes)) (after : Text) :
    readAttributes? (attributes.flatMap Attribute.markup ++ (tagEnd selfClosing ++ after)) =
      some ((attributes, selfClosing), after) := by
  induction h with
  | nil selfClosing =>
    exact readAttributes?_markup (fun _ ha => absurd ha List.not_mem_nil)
      (fun _ _ ha => by cases ha) after
  | empty hne chars =>
    rw [List.flatMap_singleton]
    exact readAttributes?_empty hne chars after
  | @cons attr attributes selfClosing hattr hrest ih =>
    cases attributes with
    | nil =>
      refine readAttributes?_markup (List.forall_mem_singleton.mpr hattr) ?_ after
      intro closes last hl text hv
      exact hs ⟨closes, last, hl, text, hv⟩
    | cons next others =>
      have read := ih fun ⟨closes, last, hl, text⟩ => hs ⟨closes, last, by simpa using hl, text⟩
      obtain ⟨hne, chars⟩ := hrest.names next List.mem_cons_self
      rw [List.flatMap_cons, List.append_assoc] at read ⊢
      rw [List.flatMap_cons, List.append_assoc]
      exact readAttributes?_markup_append hattr (endsAttribute_markup hne chars _)
        (fun _ _ => inValue_eq_false_of_markup next _) read

/-- The slash behind a last value without quotes is read as a part of it. -/
theorem readAttributes?_slashed (h : ReadAttributes attributes true)
    (hs : EndsUnquoted attributes) (after : Text) :
    ∃ others, others ≠ attributes ∧
      readAttributes? (attributes.flatMap Attribute.markup ++ (tagEnd true ++ after)) =
        some ((others, false), after) := by
  obtain ⟨⟨name, value⟩, hl, text, rfl⟩ := hs
  obtain ⟨before, rfl⟩ := List.getLast?_eq_some_iff.mp hl
  have all := List.forall_mem_append.mp h.writable
  have hlast : Attribute.Writable ⟨name, .unquoted text⟩ := all.2 _ List.mem_cons_self
  obtain ⟨htext, chars, quotes⟩ := hlast.value
  have slashed : Attribute.Writable ⟨name, .unquoted (text ++ ['/'])⟩ := by
    refine ⟨hlast.name_ne, hlast.name_chars, by simp, ?_, fun quote => ?_⟩
    · exact List.forall_mem_append.mpr ⟨chars, List.forall_mem_singleton.mpr (by decide)⟩
    · obtain ⟨c, text, rfl⟩ := List.exists_cons_of_ne_nil htext
      exact quotes quote
  refine ⟨before ++ [⟨name, .unquoted (text ++ ['/'])⟩], by simp, ?_⟩
  have read := readAttributes?_markup
    (List.forall_mem_append.mpr ⟨all.1, List.forall_mem_singleton.mpr slashed⟩)
    (fun closes : false = true => by cases closes) after
  rw [← read]
  simp [Attribute.markup, tagEnd]

end ReadAttributes

theorem readMarkup?_of_opening {raw : Option Text} {c : Char} {rest after name : Text}
    {attributes : List Attribute} {selfClosing : Bool}
    (h : nextToken raw c rest = (.opening name attributes selfClosing, after)) :
    readMarkup? (c :: rest) = some (.opening name attributes selfClosing, after) := by
  have read (h : readToken c rest = (.opening name attributes selfClosing, after)) :
      readMarkup? (c :: rest) = some (.opening name attributes selfClosing, after) := by
    unfold readToken at h
    cases hm : readMarkup? (c :: rest) with
    | none =>
      rw [hm] at h
      cases h
    | some found =>
      rw [hm] at h
      exact congrArg some h
  unfold nextToken at h
  split at h
  next => exact read h
  next =>
    dsimp only at h
    split at h
    next => exact read h
    next => cases h

theorem readOpening?_of_readMarkup? {text after name : Text} {attributes : List Attribute}
    {selfClosing : Bool}
    (h : readMarkup? text = some (.opening name attributes selfClosing, after)) :
    ∃ rest, text = '<' :: rest ∧
      readOpening? rest = some (.opening name attributes selfClosing, after) := by
  unfold readMarkup? at h
  split at h
  next =>
    obtain ⟨_, _, he⟩ := Option.map_eq_some_iff.mp h
    cases he
  next =>
    obtain ⟨_, _, he⟩ := Option.map_eq_some_iff.mp h
    cases he
  next =>
    obtain ⟨_, _, he⟩ := Option.map_eq_some_iff.mp h
    cases he
  next rest =>
    unfold readClosing? at h
    split at h
    next => cases h
    next =>
      split at h
      next =>
        obtain ⟨_, _, he⟩ := Option.map_eq_some_iff.mp h
        cases he
      next => cases h
  next rest _ _ _ _ => exact ⟨rest, rfl, h⟩
  next => cases h

/-- The parts of a start tag as they are read. -/
structure ReadTag (name : Text) (attributes : List Attribute) (selfClosing : Bool) : Prop where
  name_starts : ∃ c, name.head? = some c ∧ startsName c = true
  name_chars : ∀ c ∈ name, inName c = true
  attributes : ReadAttributes attributes selfClosing

theorem readTag_of_readOpening? {text after name : Text} {attributes : List Attribute}
    {selfClosing : Bool}
    (h : readOpening? text = some (.opening name attributes selfClosing, after)) :
    ReadTag name attributes selfClosing := by
  cases text with
  | nil => cases h
  | cons c rest =>
    cases hc : startsName c with
    | false => simp [readOpening?, hc] at h
    | true =>
      rw [readOpening?_of_startsName hc] at h
      obtain ⟨⟨found, _⟩, hr, he⟩ := Option.map_eq_some_iff.mp h
      obtain ⟨hopening, _⟩ := Prod.mk.inj he
      obtain ⟨rfl, rfl, rfl⟩ := Token.opening.inj hopening
      have hin : (c :: rest).takeWhile inName = c :: rest.takeWhile inName :=
        List.takeWhile_cons_of_pos (inName_of_startsName hc)
      refine ⟨⟨c, ?_, hc⟩, fun d hd => List.all_eq_true.mp List.all_takeWhile d hd,
        readAttributes_of_readAttributes? hr⟩
      rw [spanName, hin]
      rfl

/-- All start tags among the tokens of a text. -/
theorem readTag_of_mem_tokens {raw : Option Text} {text name : Text} {attributes : List Attribute}
    {selfClosing : Bool} (h : .opening name attributes selfClosing ∈ tokensIn raw text) :
    ReadTag name attributes selfClosing := by
  fun_induction tokensIn raw text with
  | case1 => cases h
  | case2 raw c rest token after hn _ ih =>
    rcases List.mem_cons.mp h with rfl | hm
    · obtain ⟨_, _, read⟩ := readOpening?_of_readMarkup? (readMarkup?_of_opening hn)
      exact readTag_of_readOpening? read
    · exact ih hm

namespace ReadTag

variable {name : Text} {attributes : List Attribute} {selfClosing : Bool}

theorem readMarkup?_startTag (h : ReadTag name attributes selfClosing) {form : Form}
    (hform : form = .selfClosed ↔ selfClosing = true) (after : Text) :
    readMarkup? (Element.startTag ⟨name, attributes, form⟩ ++ after) =
      (readAttributes? (attributes.flatMap Attribute.markup ++ (tagEnd selfClosing ++ after))).map
        fun found => (.opening name found.1.1 found.1.2, found.2) := by
  obtain rfl : (form == .selfClosed) = selfClosing := by
    rw [Bool.eq_iff_iff, beq_iff_eq]
    exact hform
  rw [Element.startTag_eq]
  exact readMarkup?_name h.name_starts h.name_chars attributes _ after

end ReadTag

theorem readsAs_of_readMarkup? {text : Text} {token : Token}
    (h : ∀ after, readMarkup? (text ++ after) = some (token, after)) : ReadsAs text token :=
  fun after => tokensIn_of_readMarkup? (h after)

/-- A start tag among the tokens of a text is read as it was when it is written again, unless it
closes itself behind a value without quotes. -/
theorem readsAs_startTag_iff {text name : Text} {attributes : List Attribute} {selfClosing : Bool}
    (h : .opening name attributes selfClosing ∈ tokens text) {form : Form}
    (hform : form = .selfClosed ↔ selfClosing = true) :
    ReadsAs (Element.startTag ⟨name, attributes, form⟩) (.opening name attributes selfClosing) ↔
      ¬ (selfClosing = true ∧ EndsUnquoted attributes) := by
  have tag := readTag_of_mem_tokens h
  constructor
  · rintro reads ⟨rfl, unquoted⟩
    obtain ⟨others, hne, slashed⟩ := tag.attributes.readAttributes?_slashed unquoted []
    have read := tag.readMarkup?_startTag hform []
    rw [slashed, Option.map_some] at read
    have first := (tokensIn_of_readMarkup? read).symm.trans (reads [])
    obtain ⟨_, ho, _⟩ := Token.opening.inj (List.cons.inj first).1
    exact hne ho
  · intro hs
    apply readsAs_of_readMarkup?
    intro after
    rw [tag.readMarkup?_startTag hform, tag.attributes.readAttributes?_written hs]
    rfl

/-- Spaces around the sign of equality and a slash between attributes are not written again. -/
theorem readsAs_startTag_spaced :
    .opening "a".toList [⟨"x".toList, .unquoted "1/".toList⟩, ⟨"y".toList, .bare⟩] true ∈
      tokens "<a x = 1/ / y/>".toList ∧
    ReadsAs "<a x=1/ y/>".toList
      (.opening "a".toList [⟨"x".toList, .unquoted "1/".toList⟩, ⟨"y".toList, .bare⟩] true) := by
  have read : .opening "a".toList [⟨"x".toList, .unquoted "1/".toList⟩, ⟨"y".toList, .bare⟩] true ∈
      tokens "<a x = 1/ / y/>".toList := by decide +kernel
  have form : Form.selfClosed = .selfClosed ↔ true = true := by decide
  refine ⟨read, (readsAs_startTag_iff read form).mpr ?_⟩
  rintro ⟨_, _, ha, _, hv⟩
  cases Option.some.inj ha
  cases hv

/-- The slash of a tag that closes itself behind a value without quotes is read as a part of the
value, and the element is open. -/
theorem not_readsAs_startTag_slashed :
    .opening "include".toList [⟨"src".toList, .unquoted "p".toList⟩] true ∈
      tokens "<include src=p />".toList ∧
    ¬ ReadsAs (Element.startTag
        ⟨"include".toList, [⟨"src".toList, .unquoted "p".toList⟩], .selfClosed⟩)
      (.opening "include".toList [⟨"src".toList, .unquoted "p".toList⟩] true) := by
  refine ⟨by decide +kernel, fun reads => ?_⟩
  have read := reads []
  revert read
  decide +kernel

end MarkupTemplate
