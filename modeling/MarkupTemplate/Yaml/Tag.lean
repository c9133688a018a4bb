import MarkupTemplate.Yaml.Scalar

namespace MarkupTemplate

/-- The bytes of a tag. -/
abbrev TagBytes := List UInt8

/-- The bytes of the Unicode encoding of a text. -/
def encodedBytes (text : Text) : List UInt8 :=
  (String.ofList text).toUTF8.data.toList

/-- The text that bytes encode. -/
def decodedText? (bytes : List UInt8) : Option Text :=
  (String.fromUTF8? ⟨bytes.toArray⟩).map String.toList

/-- The bytes before the first that is zero, which ends a tag. -/
def bytesToZero (bytes : TagBytes) : TagBytes :=
  bytes.takeWhile (· ≠ 0)

/-- The full tag of a kind in the YAML standard. -/
def standardTag (kind : Text) : TagBytes :=
  encodedBytes ("tag:yaml.org,2002:".toList ++ kind)

/-- A tag without the mark in front, unless the mark is all of it. -/
def bareTag (tag : Text) : Text :=
  match tag with
  | '!' :: name@(_ :: _) => name
  | _ => tag

/-- A tag that begins with the mark is none of the standard. -/
def hasTagMark (tag : TagBytes) : Bool :=
  tag.head? == some 33

/-- A tag of one's own, without the mark in front. Its bytes must encode a text. -/
def ownTag? : Option TagBytes → Option Text
  | some (33 :: name) => (decodedText? (if name.isEmpty then [33] else name)).map bareTag
  | _ => none

/-- A tag as it is written: the handle before its name, and the name. -/
structure TagWord where
  handle : Text
  suffix : TagBytes
deriving DecidableEq, Repr

/-- A character of an anchor or of the handle of a tag. -/
def isYamlWordChar (c : Char) : Bool :=
  c.isAlphanum || c == '_' || c == '-'

/-- A character of the name of a tag. -/
def isTagChar (wide : Bool) (c : Char) : Bool :=
  isYamlWordChar c || ";/?:@&=+$.%!~*'()".toList.contains c ||
    (wide && (c == ',' || c == '[' || c == ']'))

/-- The number of escapes that follow a first one in the encoding of a character. -/
def escapesAfter? (byte : Nat) : Option Nat :=
  if byte < 0x80 then some 0
  else if 0xC0 ≤ byte ∧ byte < 0xE0 then some 1
  else if 0xE0 ≤ byte ∧ byte < 0xF0 then some 2
  else if 0xF0 ≤ byte ∧ byte < 0xF8 then some 3
  else none

/-- The bytes of the name of a tag, some of them written in hexadecimal. A character beyond ASCII
is written by escapes in a row, of which so many are still `missing`. -/
def tagBytes? (missing : Nat) : Text → Option TagBytes
  | '%' :: a :: b :: rest =>
    match baseValue? 16 [a, b] with
    | none => none
    | some byte =>
      let missing := match missing with
        | 0 => escapesAfter? byte
        | n + 1 => if 0x80 ≤ byte ∧ byte < 0xC0 then some n else none
      missing.bind fun missing => (tagBytes? missing rest).map (byte.toUInt8 :: ·)
  | '%' :: _ => none
  | c :: rest => if missing = 0 then (tagBytes? 0 rest).map (c.toNat.toUInt8 :: ·) else none
  | [] => if missing = 0 then some [] else none

end MarkupTemplate
