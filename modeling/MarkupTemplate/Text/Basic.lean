namespace MarkupTemplate

/-- Text is the list of its characters. -/
abbrev Text := List Char

/-- White space of every script, line breaks included. -/
def isBlank (c : Char) : Bool :=
  let code := c.toNat
  (0x09 ≤ code && code ≤ 0x0D) || code == 0x20 || code == 0x85 || code == 0xA0 ||
    code == 0x1680 || (0x2000 ≤ code && code ≤ 0x200A) || code == 0x2028 || code == 0x2029 ||
    code == 0x202F || code == 0x205F || code == 0x3000

/-- White space that separates the parts of a tag. -/
def isTagSpace (c : Char) : Bool :=
  c == ' ' || c == '\t' || c == '\n' || c == '\x0c' || c == '\r'

/-- Text that shows nothing. -/
def isBlankText (text : Text) : Bool :=
  text.all isBlank

/-- The ASCII letters of a name in lower case, all else as it is. -/
def lowerAscii (text : Text) : Text :=
  text.map Char.toLower

/-- Two names that differ at most in the case of ASCII letters. -/
def sameName (a b : Text) : Bool :=
  lowerAscii a == lowerAscii b

/-- The text before the first occurrence of `mark` and the text after it. -/
def cut? (mark : Text) : Text → Option (Text × Text)
  | [] => if mark.isEmpty then some ([], []) else none
  | c :: rest =>
    if mark.isPrefixOf (c :: rest) then some ([], (c :: rest).drop mark.length)
    else match cut? mark rest with
      | none => none
      | some (before, after) => some (c :: before, after)

/-- What lies around the first occurrence, together with it, is the whole text. -/
theorem append_of_cut? {mark text before after : Text} (h : cut? mark text = some (before, after)) :
    before ++ mark ++ after = text := by
  induction text generalizing before with
  | nil =>
    cases mark <;> simp_all [cut?]
  | cons c rest ih =>
    rw [cut?] at h
    split at h
    next hp =>
      obtain ⟨tail, ht⟩ := List.isPrefixOf_iff_prefix.1 hp
      simp only [Option.some.injEq, Prod.mk.injEq] at h
      obtain ⟨rfl, rfl⟩ := h
      simp [← ht]
    next =>
      split at h
      next => simp at h
      next before' after' heq =>
        simp only [Option.some.injEq, Prod.mk.injEq] at h
        obtain ⟨rfl, rfl⟩ := h
        simpa using ih heq

theorem length_of_cut? {mark text before after : Text} (h : cut? mark text = some (before, after)) :
    before.length + mark.length + after.length = text.length := by
  simp [← append_of_cut? h, Nat.add_assoc]

/-- The text contains `mark`. -/
def containsText (mark text : Text) : Bool :=
  (cut? mark text).isSome

/-- The value of a decimal digit. -/
def digit? (c : Char) : Option Nat :=
  if '0' ≤ c ∧ c ≤ '9' then some (c.toNat - '0'.toNat) else none

/-- The number that a non-empty run of decimal digits writes, after `acc`. -/
def digitsValue? (acc : Nat) : Text → Option Nat
  | [] => some acc
  | c :: rest => match digit? c with
    | none => none
    | some d => digitsValue? (10 * acc + d) rest

/-- The numbers below this fit a word of 64 bits. -/
def wordLimit : Nat := 18446744073709551616

/-- An unsigned decimal numeral of a word, with a `+` and zeros in front as one likes. -/
def index? (text : Text) : Option Nat :=
  let digits := match text with
    | '+' :: rest => rest
    | _ => text
  if digits.isEmpty then none
  else (digitsValue? 0 digits).filter (· < wordLimit)

/-- A natural number in decimal. -/
def natText (n : Nat) : Text :=
  Nat.toDigits 10 n

/-- An integer in decimal. -/
def intText (n : Int) : Text :=
  if n < 0 then '-' :: natText n.natAbs else natText n.natAbs

/-- The length of a text in bytes of its Unicode encoding. -/
def encodedSize : Text → Nat
  | [] => 0
  | c :: rest => c.utf8Size + encodedSize rest

/-- The parts with `separator` between them. -/
def joinText (separator : Text) : List Text → Text
  | [] => []
  | [part] => part
  | part :: parts => part ++ separator ++ joinText separator parts

end MarkupTemplate
