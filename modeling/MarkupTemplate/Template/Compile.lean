import MarkupTemplate.Text.Basic

namespace MarkupTemplate

/-- The text without author comments, which reach from `{!` to the next `!}`. -/
def stripComments (text : Text) : Text :=
  match text with
  | [] => []
  | '{' :: '!' :: rest =>
    match h : cut? ['!', '}'] rest with
    | none => text
    | some (_, after) =>
      have : after.length ≤ rest.length := by
        have := length_of_cut? h
        omega
      stripComments after
  | c :: rest => c :: stripComments rest
termination_by text.length

/-- Line breaks and tabs, which no compiled text holds. -/
def isControlSpace (c : Char) : Bool :=
  c == '\x0c' || c == '\n' || c == '\r' || c == '\t' || c == '\x0b'

/-- The text with one space for each run of two or more blanks. -/
def collapseBlanks : Text → Text
  | [] => []
  | [c] => [c]
  | c :: d :: rest =>
    if isBlank c && isBlank d then
      have : (rest.dropWhile isBlank).length ≤ rest.length := (List.dropWhile_sublist _).length_le
      ' ' :: collapseBlanks (rest.dropWhile isBlank)
    else c :: collapseBlanks (d :: rest)
termination_by text => text.length

/-- The text without a single space between the end of a tag and the start of the next. -/
def closeGaps : Text → Text
  | [] => []
  | '>' :: ' ' :: '<' :: rest => '>' :: '<' :: closeGaps rest
  | c :: rest => c :: closeGaps rest

/-- The compiled form of a template. -/
def compile (raw : Text) : Text :=
  closeGaps (collapseBlanks ((stripComments raw).filter (!isControlSpace ·)))

example : compile "<p>\n\t\x7b! a\ncomment !\x7dHello   \x7bname\x7d</p>\r\n <p>x</p>".toList =
    "<p>Hello \x7bname\x7d</p><p>x</p>".toList := by decide +kernel

example : compile "\x7b\x7b!a!\x7d! b!\x7d".toList = "\x7b! b!\x7d".toList := by decide +kernel

end MarkupTemplate
