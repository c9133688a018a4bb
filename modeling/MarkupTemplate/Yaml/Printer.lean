import MarkupTemplate.Yaml.Tag

namespace MarkupTemplate

/-- The break of a line within YAML text. -/
def isYamlBreak (c : Char) : Bool :=
  c == '\n' || c == '\r' || c == '\u0085' || c == '\u2028' || c == '\u2029'

/-- A character that shows as itself outside of double quotes. -/
def isYamlPrintable (c : Char) : Bool :=
  let code := c.toNat
  code == 0x0A || (0x20 ≤ code && code ≤ 0x7E) ||
    (0xA0 ≤ code && code != 0xFEFF && code != 0xFFFE && code != 0xFFFF)

/-- How a scalar may be written. -/
inductive ScalarForm where
  | plain
  | single
  | double
  | literal
deriving DecidableEq, Repr

/-- A blank, a break or the end of the text. -/
def endsWord (text : Text) : Bool :=
  match text with
  | [] => true
  | c :: _ => c == ' ' || c == '\t' || isYamlBreak c

/-- The text has a place that would end a plain scalar, or read as something else. -/
def hasIndicator (text : Text) : Bool :=
  let rec inside : Char → Text → Bool
    | _, [] => false
    | before, c :: rest =>
      (c == ':' && endsWord rest) || (c == '#' && endsWord [before]) || inside c rest
  match text with
  | [] => false
  | c :: rest =>
    "---".toList.isPrefixOf text || "...".toList.isPrefixOf text ||
      "#,[]\x7b\x7d&*!|>'\"%@\x60".toList.contains c ||
      ((c == '?' || c == ':' || c == '-') && endsWord rest) || inside c rest

/-- Two characters with the properties stand next to each other. -/
def hasPair (first second : Char → Bool) : Text → Bool
  | c :: d :: rest => (first c && second d) || hasPair first second (d :: rest)
  | _ => false

/-- A space or break at either end of the text. -/
def hasOuterSpace (text : Text) : Bool :=
  let isSpace := fun c => c == ' ' || isYamlBreak c
  text.head?.any isSpace || text.getLast?.any isSpace

/-- The form that a text asks for: one that reads as something else is quoted, and one with line
breaks is literal. -/
def wantedForm (text : Text) : ScalarForm :=
  if text.contains '\n' then .literal
  else match plainScalar? text with
    | some (.text _) => if isZeroPadded text then .single else .plain
    | _ => .single

/-- The form that a text gets where it stands, as a key within its line or not. -/
def scalarForm (asKey : Bool) (text : Text) : ScalarForm :=
  let isSpace := fun c => c == ' '
  let multiline := text.any isYamlBreak
  let special := text.any (!isYamlPrintable ·) || hasPair isSpace isYamlBreak text
  let spaceAfterBreak := hasPair isYamlBreak isSpace text
  let quoted : ScalarForm := if special || spaceAfterBreak then .double else .single
  match wantedForm text with
  | .plain =>
    if multiline && asKey then .double
    else if text.isEmpty then (if asKey then .single else .plain)
    else if hasOuterSpace text || special || multiline || hasIndicator text then quoted
    else .plain
  | .literal =>
    if asKey || special || text.getLast?.any isSpace then .double else .literal
  | _ => if multiline && asKey then .double else quoted

/-- A number in hexadecimal digits with zeros in front. -/
def hexText (width n : Nat) : Text :=
  let digits := (Nat.toDigits 16 n).map Char.toUpper
  List.replicate (width - digits.length) '0' ++ digits

/-- A character within double quotes. -/
def doubleQuotedChar (c : Char) : Text :=
  match c with
  | '"' => ['\\', '"']
  | '\\' => ['\\', '\\']
  | '\x00' => ['\\', '0']
  | '\x07' => ['\\', 'a']
  | '\x08' => ['\\', 'b']
  | '\t' => ['\\', 't']
  | '\n' => ['\\', 'n']
  | '\x0b' => ['\\', 'v']
  | '\x0c' => ['\\', 'f']
  | '\r' => ['\\', 'r']
  | '\x1b' => ['\\', 'e']
  | '\u0085' => ['\\', 'N']
  | '\u2028' => ['\\', 'L']
  | '\u2029' => ['\\', 'P']
  | _ =>
    if isYamlPrintable c then [c]
    else if c.toNat ≤ 0xFF then '\\' :: 'x' :: hexText 2 c.toNat
    else if c.toNat ≤ 0xFFFF then '\\' :: 'u' :: hexText 4 c.toNat
    else '\\' :: 'U' :: hexText 8 c.toNat

/-- Spaces up to a column. -/
def pad (indent : Nat) : Text :=
  List.replicate indent ' '

/-- A second text on a line of its own after a first one, which may have ended its last line. -/
def onNewLine (indent : Nat) (first second : Text) : Text :=
  first ++ (if first.getLast?.any isYamlBreak then [] else ['\n']) ++ pad indent ++ second

/-- The mark of a literal text: whether it begins with a space, and how many breaks it ends in. -/
def literalMark (text : Text) : Text :=
  let breaks := (text.reverse.takeWhile isYamlBreak).length
  '|' :: (if text.head?.any (fun c => c == ' ' || isYamlBreak c) then ['2'] else []) ++
    if breaks = 0 then ['-']
    else if breaks = 1 ∧ text.length ≠ 1 then []
    else ['+']

/-- The lines of a literal text, each with the indent unless it is empty. -/
def literalLines (indent : Nat) (atStart : Bool) : Text → Text
  | [] => []
  | c :: rest =>
    if isYamlBreak c then c :: literalLines indent true rest
    else (if atStart then pad indent else []) ++ c :: literalLines indent false rest

/-- What stands between single quotes: each quote twice, and the indent after breaks. -/
def singleQuotedLines (indent : Nat) (atStart : Bool) : Text → Text
  | [] => if atStart then pad indent else []
  | c :: rest =>
    if isYamlBreak c then c :: singleQuotedLines indent true rest
    else
      (if atStart then pad indent else []) ++ (if c = '\'' then ['\'', '\''] else [c]) ++
        singleQuotedLines indent false rest

/-- A text as a scalar, whose further lines have the indent. -/
def scalarText (asKey : Bool) (indent : Nat) (text : Text) : Text :=
  match scalarForm asKey text with
  | .plain => text
  | .single => '\'' :: singleQuotedLines indent false text ++ ['\'']
  | .double => '"' :: text.flatMap doubleQuotedChar ++ ['"']
  | .literal => literalMark text ++ '\n' :: literalLines indent true text

namespace Yaml

/-- The numeral of a float. -/
def floatText : YamlFloat → Text
  | .finite x => x.text yamlLayout
  | .infinity negative => if negative then "-.inf".toList else ".inf".toList
  | .nan => ".nan".toList

/-- A character of a tag that is written as itself. -/
def inTag (c : Char) : Bool :=
  c.isAlphanum || "-_;/?:@&=+$,.~*'()[]".toList.contains c

/-- The name of a tag, with escapes for what may not stand there as itself. -/
def tagName (name : Text) : Text :=
  let escape (byte : UInt8) : Text := '%' :: hexText 2 byte.toNat
  name.flatMap fun c => if inTag c then [c] else (encodedBytes [c]).flatMap escape

/-- A tag with its mark, up to a character that is zero. -/
def markedTag (tag : Text) : Text :=
  (if tag.head? = some '!' then tag else '!' :: tag).takeWhile (· ≠ '\x00')

/-- A tag as it is written. One that is only the mark stands between angle brackets. -/
def tagText (tag : Text) : Text :=
  let name := (markedTag tag).drop 1
  if name.isEmpty then "!<%21>".toList else '!' :: tagName name

/-- The characters of a scalar without quotes. -/
def scalarContent? : Yaml → Option Text
  | .null => some "null".toList
  | .bool b => some (if b then "true".toList else "false".toList)
  | .integer n => some (intText n)
  | .float x => some (floatText x)
  | .text t => some t
  | _ => none

/-- A value that fits on a line without its tag: a scalar or an empty collection. -/
def inlineText? (asKey : Bool) (indent : Nat) : Yaml → Option Text
  | .text t => some (scalarText asKey indent t)
  | .sequence [] => some ['[', ']']
  | .mapping [] => some ['\x7b', '\x7d']
  | value => value.scalarContent?

/-- The tag in front of a value and the value. -/
def split : Yaml → Option Text × Yaml
  | .tagged tag value => (some tag, value)
  | value => (none, value)

/-- A value may stand as a key within its line if it is short and has no line breaks. What counts
are the characters of its tag and of a scalar. -/
def isShortKey (value : Yaml) : Bool :=
  let (tag, inner) := value.split
  let content? := match inner with
    | .sequence [] => some []
    | .mapping [] => some []
    | inner => inner.scalarContent?
  let tagSize := tag.elim 0 fun tag => encodedSize (markedTag tag)
  content?.any fun content =>
    !content.any isYamlBreak && tagSize + encodedSize content ≤ 128

/-- A key that cannot be written when it is the only one of a mapping without a tag. -/
def isTagLike : Yaml → Bool
  | .tagged _ _ => true
  | .mapping [_] => true
  | _ => false

/-- Where a value stands: at the start of the text, after the mark of an item or of a long key, or
after a short key. -/
inductive Position where
  | start
  | item
  | longKey
  | afterKey
deriving DecidableEq, Repr

/-- The indent of a block at a position of a line with the given indent. A sequence after a short
key keeps the indent of the key. -/
def blockIndent (position : Position) (indent : Nat) (tagged sequence : Bool) : Nat :=
  match position with
  | .start => 0
  | .item => indent + 2
  | .longKey => if tagged && sequence then indent else indent + 2
  | .afterKey => if sequence then indent else indent + 2

/-- Puts a block after its tag: on the same line only after the mark of an item or long key. -/
def placeBlock (position : Position) (indent : Nat) (tag : Option Text) (block : Text) : Text :=
  match tag, position with
  | none, .start => block
  | none, .afterKey => onNewLine indent [] block
  | none, _ => ' ' :: block
  | some tag, .start => onNewLine indent tag block
  | some tag, _ => onNewLine indent (' ' :: tag) block

/-- Puts a scalar after its tag. -/
def placeInline (position : Position) (tag : Option Text) (scalar : Text) : Text :=
  let whole := match tag with
    | none => scalar
    | some tag => if scalar.isEmpty then tag else tag ++ ' ' :: scalar
  if position = .start then whole else ' ' :: whole

/-- The lines of a block one below the other. -/
def joinLines (indent : Nat) : List Text → Text
  | [] => []
  | line :: lines => lines.foldl (onNewLine indent) line

mutual

/-- A value at a position. A tag directly inside another one cannot be written, and neither can an
only key that is like a tag. -/
def textAt? (position : Position) (indent : Nat) : Yaml → Option Text
  | .tagged tag (.sequence (item :: items)) =>
    let inner := blockIndent position indent true true
    (itemTexts? inner (item :: items)).map fun lines =>
      placeBlock position inner (some (tagText tag)) (joinLines inner lines)
  | .tagged tag (.mapping (entry :: entries)) =>
    let inner := blockIndent position indent true false
    (entryTexts? inner (entry :: entries)).map fun lines =>
      placeBlock position inner (some (tagText tag)) (joinLines inner lines)
  | .tagged tag value =>
    (value.inlineText? false (indent + 2)).map (placeInline position (some (tagText tag)))
  | .sequence (item :: items) =>
    let inner := blockIndent position indent false true
    (itemTexts? inner (item :: items)).map fun lines =>
      placeBlock position inner none (joinLines inner lines)
  | .mapping (entry :: entries) =>
    let inner := blockIndent position indent false false
    if entries.isEmpty && entry.1.isTagLike then none
    else (entryTexts? inner (entry :: entries)).map fun lines =>
      placeBlock position inner none (joinLines inner lines)
  | value => (value.inlineText? false (indent + 2)).map (placeInline position none)

/-- The items of a sequence. -/
def itemTexts? (indent : Nat) : List Yaml → Option (List Text)
  | [] => some []
  | item :: items =>
    match item.textAt? .item indent, itemTexts? indent items with
    | some first, some rest => some (('-' :: first) :: rest)
    | _, _ => none

/-- The entries of a mapping. -/
def entryTexts? (indent : Nat) : List (Yaml × Yaml) → Option (List Text)
  | [] => some []
  | (key, value) :: entries =>
    let entry :=
      if key.isShortKey then
        let (tag, inner) := key.split
        match inner.inlineText? true indent, value.textAt? .afterKey indent with
        | some scalar, some second =>
          some (placeInline .start (tag.map tagText) scalar ++ ':' :: second)
        | _, _ => none
      else
        match key.textAt? .longKey indent, value.textAt? .longKey indent with
        | some first, some second => some (onNewLine indent ('?' :: first) (':' :: second))
        | _, _ => none
    match entry, entryTexts? indent entries with
    | some first, some rest => some (first :: rest)
    | _, _ => none

end

/-- The YAML text of a value, unless its tags or only keys cannot be written. -/
def print? (value : Yaml) : Option Text :=
  value.textAt? .start 0

end Yaml

end MarkupTemplate
