import MarkupTemplate.Yaml.Printer

namespace MarkupTemplate

/-- A place in YAML text: what is still to be read, and how far reading has come in lines, in
characters of the line, and in bytes of the whole. -/
structure Cursor where
  rest : Text
  line : Nat := 0
  column : Nat := 0
  offset : Nat := 0
deriving Repr

/-- A space or tab. -/
def isYamlBlank (c : Char) : Bool :=
  c == ' ' || c == '\t'

/-- A character that YAML text may hold. -/
def isYamlChar (c : Char) : Bool :=
  c == '\t' || c == '\r' || c == '\u0085' || c == '\ufeff' || isYamlPrintable c

namespace Cursor

/-- The next character. -/
def next? (cursor : Cursor) : Option Char :=
  cursor.rest.head?

/-- Passes characters of one line. -/
def skip (cursor : Cursor) (count : Nat) : Cursor :=
  { cursor with
    rest := cursor.rest.drop count
    column := cursor.column + count
    offset := cursor.offset + encodedSize (cursor.rest.take count) }

/-- Passes the characters of one line that have a property. -/
def skipWhile (cursor : Cursor) (property : Char → Bool) : Cursor :=
  cursor.skip (cursor.rest.takeWhile property).length

/-- Passes a line break, of which a return before a line feed is part, and tells what it counts
as. -/
def skipBreak (cursor : Cursor) : Text × Cursor :=
  let after (count : Nat) : Cursor :=
    { rest := cursor.rest.drop count
      line := cursor.line + 1
      offset := cursor.offset + encodedSize (cursor.rest.take count) }
  match cursor.rest with
  | '\r' :: '\n' :: _ => (['\n'], after 2)
  | '\u2028' :: _ => (['\u2028'], after 1)
  | '\u2029' :: _ => (['\u2029'], after 1)
  | [] => ([], cursor)
  | _ => (['\n'], after 1)

/-- After so many characters there is a blank, a break or the end. -/
def endsWordAt (cursor : Cursor) (count : Nat) : Bool :=
  endsWord (cursor.rest.drop count)

/-- The mark of a document boundary stands at the start of the line. -/
def atBoundary (cursor : Cursor) : Bool :=
  cursor.column == 0 && cursor.endsWordAt 3 &&
    ("---".toList.isPrefixOf cursor.rest || "...".toList.isPrefixOf cursor.rest)

/-- At the end or at a break. -/
def atLineEnd (cursor : Cursor) : Bool :=
  match cursor.rest with
  | [] => true
  | c :: _ => isYamlBreak c

end Cursor

/-- Blanks and breaks between the words of a scalar. -/
structure Gap where
  blanks : Text := []
  firstBreak : Option Text := none
  laterBreaks : Text := []

namespace Gap

/-- A gap that reaches over the end of a line. -/
def hasBreak (gap : Gap) : Bool :=
  gap.firstBreak.isSome

/-- Adds a blank; blanks at the ends of lines do not count. -/
def addBlank (gap : Gap) (c : Char) : Gap :=
  if gap.hasBreak then gap else { gap with blanks := gap.blanks ++ [c] }

/-- Adds a break. -/
def addBreak (gap : Gap) (lineBreak : Text) : Gap :=
  if gap.hasBreak then { gap with laterBreaks := gap.laterBreaks ++ lineBreak }
  else { firstBreak := some lineBreak }

/-- What a gap stands for: its blanks, or a space for one line break, or the breaks but one. -/
def text (gap : Gap) : Text :=
  match gap.firstBreak with
  | none => gap.blanks
  | some first =>
    if first = ['\n'] then (if gap.laterBreaks.isEmpty then [' '] else gap.laterBreaks)
    else first ++ gap.laterBreaks

end Gap

end MarkupTemplate
