import MarkupTemplate.Markup.Token
import MarkupTemplate.Text.Byte

namespace MarkupTemplate

/-- The length of the white space at the start of a text. -/
def spaceLength (text : Text) : Nat :=
  ((bytes text).takeWhile fun byte => isTagSpace (Char.ofNat byte.toNat)).length

/-- The length of the name at the start of a text. -/
def nameLength (text : Text) : Nat :=
  (position? (!inName ·) text).getD (encodedSize text)

/-- The quote that a character is. -/
def quote? (c : Char) : Option Quote :=
  if c = '"' then some .double else if c = '\'' then some .single else none

/-- The value at the start of a text, and the position after it. -/
def scanValue? (text : Text) : Option (Option (AttributeValue × Nat)) :=
  match text.head? with
  | none => some none
  | some c =>
    match quote? c with
    | some quote => do
      let tail ← sliceFrom? 1 text
      match position? (· == c) tail with
      | none => some none
      | some close => do
        let value ← slice? 1 (1 + close) text
        some (some (.quoted quote value, close + 2))
    | none => do
      let length := (position? (fun c => isTagSpace c || c == '>') text).getD (encodedSize text)
      let value ← sliceTo? length text
      some (some (.unquoted value, length))

/-- The attribute at the start of a text, and the position after it. -/
def scanAttribute? (text : Text) : Option (Option (Attribute × Nat)) :=
  let nameEnd := nameLength text
  if nameEnd = 0 then some none
  else do
    let name ← sliceTo? nameEnd text
    let gap ← sliceFrom? nameEnd text
    let equal := nameEnd + spaceLength gap
    let tail ← sliceFrom? equal text
    if tail.head? ≠ some '=' then some (some (⟨name, .bare⟩, nameEnd))
    else do
      let gap ← sliceFrom? (equal + 1) text
      let start := equal + 1 + spaceLength gap
      let rest ← sliceFrom? start text
      match ← scanValue? rest with
      | none => some none
      | some (value, length) => some (some (⟨name, value⟩, start + length))

theorem pos_of_scanAttribute? {text : Text} {attr : Attribute} {after : Nat}
    (h : scanAttribute? text = some (some (attr, after))) : 0 < after := by
  unfold scanAttribute? at h
  dsimp only at h
  split at h
  next => cases h
  next hn =>
    have hpos := Nat.pos_of_ne_zero hn
    obtain ⟨name, _, h⟩ := Option.bind_eq_some_iff.mp h
    obtain ⟨gap, _, h⟩ := Option.bind_eq_some_iff.mp h
    obtain ⟨tail, _, h⟩ := Option.bind_eq_some_iff.mp h
    split at h
    next =>
      obtain ⟨_, rfl⟩ := Prod.mk.inj (Option.some.inj (Option.some.inj h))
      exact hpos
    next =>
      obtain ⟨_, _, h⟩ := Option.bind_eq_some_iff.mp h
      obtain ⟨_, _, h⟩ := Option.bind_eq_some_iff.mp h
      obtain ⟨found, _, h⟩ := Option.bind_eq_some_iff.mp h
      split at h
      next => cases h
      next =>
        obtain ⟨_, rfl⟩ := Prod.mk.inj (Option.some.inj (Option.some.inj h))
        omega

theorem lt_of_byteAt? {text : Text} {position : Nat} {c : Char}
    (h : byteAt? text position = some c) : position < encodedSize text := by
  obtain ⟨_, hb, _⟩ := Option.map_eq_some_iff.mp h
  rw [← length_bytes]
  exact (List.getElem?_eq_some_iff.mp hb).1

/-- The attributes of a start tag from a position on, whether it closes itself, and the position
after it. -/
def scanAttributes? (text : Text) (position : Nat) :
    Option (Option ((List Attribute × Bool) × Nat)) := do
  let gap ← sliceFrom? position text
  let start := position + spaceLength gap
  match hb : byteAt? text start with
  | none => some none
  | some c =>
    have : start < encodedSize text := lt_of_byteAt? hb
    if c = '>' then some (some (([], false), start + 1))
    else if c = '/' then
      if byteAt? text (start + 1) = some '>' then some (some (([], true), start + 2))
      else scanAttributes? text (start + 1)
    else do
      let tail ← sliceFrom? start text
      match ha : scanAttribute? tail with
      | none => none
      | some none => some none
      | some (some (attr, after)) =>
        have : 0 < after := pos_of_scanAttribute? ha
        (scanAttributes? text (start + after)).map fun found =>
          found.map fun ((attributes, selfClosing), last) =>
            ((attr :: attributes, selfClosing), last)
termination_by encodedSize text - position

/-- The start tag at the start of a text, and the position after it. -/
def scanOpening? (text : Text) : Option (Option (Token × Nat)) :=
  if !(byteAt? text 1).any startsName then some none
  else do
    let tail ← sliceFrom? 1 text
    let nameEnd := 1 + nameLength tail
    let name ← slice? 1 nameEnd text
    (scanAttributes? text nameEnd).map fun found =>
      found.map fun ((attributes, selfClosing), after) =>
        (.opening name attributes selfClosing, after)

/-- The end tag at the start of a text, and the position after it. -/
def scanClosing? (text : Text) : Option (Option (Token × Nat)) :=
  if !(byteAt? text 2).any startsName then some none
  else do
    let tail ← sliceFrom? 2 text
    let nameEnd := 2 + nameLength tail
    let rest ← sliceFrom? nameEnd text
    match position? (· == '>') rest with
    | none => some none
    | some close => do
      let name ← slice? 2 nameEnd text
      some (some (.closing name, nameEnd + close + 1))

/-- The comment at the start of a text, and the position after it. -/
def scanComment? (text : Text) : Option (Option (Token × Nat)) := do
  let tail ← sliceFrom? 4 text
  match positionOf? "-->".toList tail with
  | none => some none
  | some close => do
    let source ← sliceTo? (4 + close + 3) text
    some (some (.comment source, 4 + close + 3))

/-- The declaration at the start of a text, and the position after it. -/
def scanDeclaration? (text : Text) : Option (Option (Token × Nat)) :=
  match position? (· == '>') text with
  | none => some none
  | some close => do
    let source ← sliceTo? (close + 1) text
    some (some (.declaration source, close + 1))

/-- Text up to the next tag that begins after `skip` bytes, and the position after it. -/
def scanText? (skip : Nat) (text : Text) : Option (Token × Nat) := do
  let tail ← sliceFrom? skip text
  let length := ((position? (· == '<') tail).map (· + skip)).getD (encodedSize text)
  let shown ← sliceTo? length text
  some (.text shown, length)

/-- The markup at the start of a text that begins with `<`, and the position after it. -/
def scanMarkup? (text : Text) : Option (Option (Token × Nat)) :=
  if "<!--".toList.isPrefixOf text then scanComment? text
  else if "<!".toList.isPrefixOf text || "<?".toList.isPrefixOf text then scanDeclaration? text
  else if "</".toList.isPrefixOf text then scanClosing? text
  else scanOpening? text

/-- The token at the start of a text that begins with `<`, and the position after it. What is no
markup after all is text. -/
def scanToken? (text : Text) : Option (Token × Nat) := do
  match ← scanMarkup? text with
  | some scanned => some scanned
  | none => scanText? 1 text

theorem lt_of_positionOf? {text tail : Text} {position length : Nat}
    (h : sliceFrom? position text = some tail)
    (hp : positionOf? ['<', '/'] tail = some length) :
    position + length + 2 ≤ encodedSize text := by
  obtain ⟨before, rfl, rfl⟩ := append_of_sliceFrom? h
  rw [positionOf?_eq] at hp
  obtain ⟨⟨inner, after⟩, hc, rfl⟩ := Option.map_eq_some_iff.mp hp
  rw [← append_of_cut? hc]
  simp only [encodedSize_append]
  have mark : encodedSize ['<', '/'] = 2 := by decide
  omega

/-- The position of the end tag of a raw text element, from a position on, or the end of the
text. -/
def scanRawText? (name text : Text) (position : Nat) : Option Nat :=
  match ht : sliceFrom? position text with
  | none => none
  | some tail =>
    match hp : positionOf? ['<', '/'] tail with
    | none => some (encodedSize text)
    | some length =>
      have := lt_of_positionOf? ht hp
      let start := position + length + 2
      if (slice? start (start + encodedSize name) text).any (sameName · name) then
        some (position + length)
      else scanRawText? name text start
termination_by encodedSize text - position

/-- The token at the start of a text, where `raw` names the raw text element that the text stands
in, and the position after it. -/
def scanNext? (raw : Option Text) (text : Text) : Option (Token × Nat) :=
  match raw with
  | none => if text.head? = some '<' then scanToken? text else scanText? 0 text
  | some name => do
    let length ← scanRawText? name text 0
    if length = 0 then scanToken? text
    else do
      let shown ← sliceTo? length text
      some (.text shown, length)

/-- A reader has come to a position of its input. It remembers the name of the raw text element that
it has just read the start of. -/
structure Reader where
  input : Text
  position : Nat := 0
  rawText : Option Text := none
deriving DecidableEq, Repr

namespace Reader

/-- The next token, and the reader after it; the `none` inside means that the input is at its
end. -/
def next? (reader : Reader) : Option (Option (Token × Reader)) :=
  if reader.position = encodedSize reader.input then some none
  else do
    let tail ← sliceFrom? reader.position reader.input
    let (token, length) ← scanNext? reader.rawText tail
    some (some (token, ⟨reader.input, reader.position + length, token.rawText?⟩))

end Reader

end MarkupTemplate
