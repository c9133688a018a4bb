import MarkupTemplate.Yaml.Word

namespace MarkupTemplate

/-- How a scalar is written, as far as its meaning depends on it. -/
inductive ScalarStyle where
  | plain
  | quoted
  | literal
  | folded
deriving DecidableEq, Repr

/-- A token of YAML text. -/
inductive YamlToken where
  | version
  | tagHandle (handle : Text) (tagPrefix : TagBytes)
  | documentStart
  | documentEnd
  | blockSequence
  | blockMapping
  | blockEnd
  | sequenceOpen
  | sequenceClose
  | mappingOpen
  | mappingClose
  | item
  | comma
  | key
  | value
  | alias (name : Text)
  | anchor (name : Text)
  | tag (word : TagWord)
  | scalar (style : ScalarStyle) (text : Text)
deriving DecidableEq, Repr

/-- The place of a token that may turn out to be a key. It must be one if nothing else may stand
there. -/
structure KeyPlace where
  required : Bool
  tokenNumber : Nat
  line : Nat
  column : Nat
  offset : Nat

/-- The state of the scanner: the tokens, last one first; the columns of the blocks, innermost
first; and for each pair of brackets, and outside of them, the place of a possible key. -/
structure Scanner where
  cursor : Cursor
  tokens : List YamlToken := []
  indent : Int := -1
  outerIndents : List Int := []
  keys : List (Option KeyPlace) := [none]
  keyAllowed : Bool := true

/-- Puts an item at a distance from the start of a list. -/
def insertAt {α : Type} (item : α) : Nat → List α → List α
  | 0, items => item :: items
  | _, [] => [item]
  | n + 1, first :: items => first :: insertAt item n items

namespace Scanner

/-- Between brackets. -/
def inFlow (s : Scanner) : Bool :=
  1 < s.keys.length

/-- The column that reading has come to. -/
def column (s : Scanner) : Int :=
  s.cursor.column

/-- Adds a token. -/
def add (s : Scanner) (token : YamlToken) : Scanner :=
  { s with tokens := token :: s.tokens }

/-- Adds a token made of so many characters. -/
def addMark (s : Scanner) (token : YamlToken) (length : Nat) : Scanner :=
  { s.add token with cursor := s.cursor.skip length }

/-- Puts a token before those from a number on. -/
def insertToken (s : Scanner) (token : YamlToken) (number : Nat) : Scanner :=
  { s with tokens := insertAt token (s.tokens.length - number) s.tokens }

/-- Begins a block at a column, unless the block around it is there already. -/
def openBlock (s : Scanner) (column : Int) (token : YamlToken) (number : Nat) : Scanner :=
  if s.inFlow || column ≤ s.indent then s
  else
    { s.insertToken token number with indent := column, outerIndents := s.indent :: s.outerIndents }

/-- Ends the blocks that lie right of a column. -/
def closeBlocks (s : Scanner) (column : Int) : Scanner :=
  if s.inFlow then s
  else go s.outerIndents s
where
  go : List Int → Scanner → Scanner
    | outer :: outers, s =>
      if column < s.indent then
        go outers { s.add .blockEnd with indent := outer, outerIndents := outers }
      else s
    | [], s => s

/-- Forgets the possible key; it must not be one that is required. -/
def dropKey (s : Scanner) : Option Scanner :=
  match s.keys with
  | some place :: others => if place.required then none else some { s with keys := none :: others }
  | _ => some s

/-- Notes that the next token may be a key. -/
def noteKey (s : Scanner) : Option Scanner :=
  if s.keyAllowed then do
    let s ← s.dropKey
    let place : KeyPlace :=
      { required := !s.inFlow && s.indent == s.column
        tokenNumber := s.tokens.length
        line := s.cursor.line
        column := s.cursor.column
        offset := s.cursor.offset }
    some { s with keys := some place :: s.keys.drop 1 }
  else some s

/-- A possible key has become none because its line has ended, or it is too long. -/
def isStale (s : Scanner) (place : KeyPlace) : Bool :=
  place.line < s.cursor.line || place.offset + 1024 < s.cursor.offset

/-- Forgets the possible keys that have become none. -/
def dropStaleKeys (s : Scanner) : Option Scanner := do
  let keys ← s.keys.mapM fun key =>
    match key with
    | some place =>
      if s.isStale place then (if place.required then none else some none) else some (some place)
    | none => some none
  some { s with keys }

/-- Passes blanks, comments and line breaks, and a mark of the byte order at the start of a line. -/
def skipToToken : Nat → Scanner → Scanner
  | 0, s => s
  | fuel + 1, s =>
    let tabs := s.inFlow || !s.keyAllowed
    let marked := s.cursor.column == 0 && s.cursor.next? == some '\ufeff'
    let cursor := if marked then s.cursor.skip 1 else s.cursor
    let cursor := cursor.skipWhile fun c => c == ' ' || (tabs && c == '\t')
    let cursor := if cursor.next? = some '#' then cursor.skipWhile (!isYamlBreak ·) else cursor
    match cursor.next? with
    | some c =>
      if isYamlBreak c then
        skipToToken fuel
          { s with cursor := cursor.skipBreak.2, keyAllowed := s.keyAllowed || !s.inFlow }
      else { s with cursor }
    | none => { s with cursor }

/-- A scalar that may be a key. -/
def addScalar (s : Scanner) (style : ScalarStyle) (found : Found Text) : Option Scanner := do
  let (text, cursor) ← found
  some { s.add (.scalar style text) with cursor, keyAllowed := false }

/-- The rest of a line that holds nothing more. -/
def endLine (s : Scanner) : Option Scanner :=
  let cursor := s.cursor.skipWhile isYamlBlank
  let cursor := if cursor.next? = some '#' then cursor.skipWhile (!isYamlBreak ·) else cursor
  if cursor.atLineEnd then some { s with cursor } else none

/-- A number of at most nine digits. -/
def readShortNumber (cursor : Cursor) : Found Nat :=
  let digits := cursor.rest.takeWhile fun c => (digit? c).isSome
  if 9 < digits.length then none
  else (baseValue? 10 digits).map (·, cursor.skip digits.length)

/-- The number of a version of YAML, which is 1.1 or 1.2. -/
def readVersion (cursor : Cursor) : Option Cursor := do
  let (major, cursor) ← readShortNumber cursor
  if cursor.next? ≠ some '.' then none
  else
    let (minor, cursor) ← readShortNumber (cursor.skip 1)
    if major = 1 ∧ (minor = 1 ∨ minor = 2) then some cursor else none

/-- A directive: the version of YAML, or a handle for tags. -/
def readDirective (s : Scanner) : Option Scanner := do
  let s ← (s.closeBlocks (-1)).dropKey
  let s := { s with keyAllowed := false }
  let name := (s.cursor.rest.drop 1).takeWhile isYamlWordChar
  let after := s.cursor.skip (1 + name.length)
  let cursor := after.skipWhile isYamlBlank
  if !after.endsWordAt 0 then none
  else if name = "YAML".toList then
    let cursor ← readVersion cursor
    Scanner.endLine { s.add .version with cursor }
  else if name = "TAG".toList then
    let handle := spanHandle cursor
    let after := cursor.skip handle.length
    if cursor.next? ≠ some '!' ∨ !after.next?.any isYamlBlank then none
    else
      let (tagPrefix, cursor) ← readTagName true (after.skipWhile isYamlBlank)
      if tagPrefix.isEmpty ∨ !cursor.endsWordAt 0 then none
      else Scanner.endLine { s.add (.tagHandle handle (bytesToZero tagPrefix)) with cursor }
  else none

/-- The mark of a document boundary. -/
def readBoundary (s : Scanner) (token : YamlToken) : Option Scanner := do
  let s ← (s.closeBlocks (-1)).dropKey
  some (Scanner.addMark { s with keyAllowed := false } token 3)

/-- The opening of a pair of brackets. -/
def readOpening (s : Scanner) (token : YamlToken) : Option Scanner := do
  let s ← s.noteKey
  some (Scanner.addMark { s with keys := none :: s.keys, keyAllowed := true } token 1)

/-- The closing of a pair of brackets. -/
def readClosing (s : Scanner) (token : YamlToken) : Option Scanner := do
  let s ← s.dropKey
  let keys := if s.inFlow then s.keys.drop 1 else s.keys
  some (Scanner.addMark { s with keys, keyAllowed := false } token 1)

/-- The mark of an item or a long key, which begins a block of its kind. -/
def readBlockMark (s : Scanner) (block token : YamlToken) (allowedAfter : Bool) :
    Option Scanner := do
  let s ←
    if s.inFlow then some s
    else if s.keyAllowed then some (s.openBlock s.column block s.tokens.length)
    else none
  let s ← s.dropKey
  some (Scanner.addMark { s with keyAllowed := allowedAfter } token 1)

/-- The sign between a key and its value. -/
def readValueMark (s : Scanner) : Option Scanner :=
  match s.keys with
  | some place :: others =>
    let s := s.insertToken .key place.tokenNumber
    let s := s.openBlock place.column .blockMapping place.tokenNumber
    some (Scanner.addMark { s with keys := none :: others, keyAllowed := false } .value 1)
  | _ =>
    if s.inFlow then some (Scanner.addMark { s with keyAllowed := false } .value 1)
    else if s.keyAllowed then
      some ((s.openBlock s.column .blockMapping s.tokens.length).addMark .value 1)
    else none

/-- An anchor or alias. -/
def readName (s : Scanner) (token : Text → YamlToken) : Option Scanner := do
  let s ← s.noteKey
  let (name, cursor) ← readAnchor (s.cursor.skip 1)
  some { s.add (token name) with cursor, keyAllowed := false }

/-- A block scalar. -/
def readBlockScalar (s : Scanner) (folded : Bool) : Option Scanner := do
  let s ← s.dropKey
  let (text, cursor) ← readBlock folded s.indent (s.cursor.skip 1)
  let style : ScalarStyle := if folded then .folded else .literal
  some { s.add (.scalar style text) with cursor, keyAllowed := true }

/-- A plain scalar. -/
def readPlainScalar (s : Scanner) : Option Scanner := do
  let s ← s.noteKey
  let indent := (s.indent + 1).toNat
  let ((text, linesEnded), cursor) ←
    readPlain s.inFlow indent (s.cursor.rest.length + 2) [] {} s.cursor
  some { s.add (.scalar .plain text) with cursor, keyAllowed := linesEnded }

/-- A quoted scalar. -/
def readQuotedScalar (s : Scanner) (single : Bool) : Option Scanner := do
  let s ← s.noteKey
  s.addScalar .quoted (readQuoted single (s.cursor.rest.length + 2) [] {} (s.cursor.skip 1))

/-- A plain scalar may begin with a character before a text. -/
def startsPlain (inFlow : Bool) (c : Char) (after : Text) : Bool :=
  !(endsWord [c] || "-?:,[]\x7b\x7d#&*!|>'\"%@\x60".toList.contains c) ||
    (c == '-' && !after.head?.any isYamlBlank) ||
    (!inFlow && (c == '?' || c == ':') && !endsWord after)

/-- The next token, at a character. -/
def readNext (s : Scanner) (c : Char) (after : Text) : Option Scanner :=
  if s.cursor.column = 0 ∧ c = '%' then s.readDirective
  else if s.cursor.atBoundary then s.readBoundary (if c = '-' then .documentStart else .documentEnd)
  else if c = '[' then s.readOpening .sequenceOpen
  else if c = '\x7b' then s.readOpening .mappingOpen
  else if c = ']' then s.readClosing .sequenceClose
  else if c = '\x7d' then s.readClosing .mappingClose
  else if c = ',' then do
    let s ← s.dropKey
    some (Scanner.addMark { s with keyAllowed := true } .comma 1)
  else if c = '-' ∧ endsWord after then s.readBlockMark .blockSequence .item true
  else if c = '?' ∧ (s.inFlow ∨ endsWord after) then s.readBlockMark .blockMapping .key (!s.inFlow)
  else if c = ':' ∧ (s.inFlow ∨ endsWord after) then s.readValueMark
  else if c = '*' then s.readName .alias
  else if c = '&' then s.readName .anchor
  else if c = '!' then do
    let s ← s.noteKey
    let (word, cursor) ← readTag s.inFlow s.cursor
    some { s.add (.tag word) with cursor, keyAllowed := false }
  else if c = '|' ∧ !s.inFlow then s.readBlockScalar false
  else if c = '>' ∧ !s.inFlow then s.readBlockScalar true
  else if c = '\'' then s.readQuotedScalar true
  else if c = '"' then s.readQuotedScalar false
  else if startsPlain s.inFlow c after then s.readPlainScalar
  else none

/-- Reads tokens up to the end of the text. -/
def readAll : Nat → Scanner → Option Scanner
  | 0, _ => none
  | fuel + 1, s => do
    let s ← (skipToToken (s.cursor.rest.length + 1) s).dropStaleKeys
    let s := s.closeBlocks s.column
    match s.cursor.rest with
    | [] => (s.closeBlocks (-1)).dropKey
    | c :: after =>
      let s ← s.readNext c after
      readAll fuel s

end Scanner

/-- The tokens of YAML text. -/
def yamlTokens? (text : Text) : Option (List YamlToken) :=
  if text.all isYamlChar then
    (Scanner.readAll (text.length + 2) { cursor := { rest := text } }).map (·.tokens.reverse)
  else none

end MarkupTemplate
