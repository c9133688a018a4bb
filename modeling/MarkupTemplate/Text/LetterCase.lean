import MarkupTemplate.Text.Basic
import MarkupTemplate.Text.CaseTable

namespace MarkupTemplate

/-- The code point belongs to one of the ranges. -/
def inRanges (ranges : List (Nat × Nat)) (code : Nat) : Bool :=
  ranges.any fun (first, last) => first ≤ code && code ≤ last

/-- Letters that have case. -/
def isCased (c : Char) : Bool :=
  if c.toNat < 128 then c.isAlpha else inRanges casedRanges c.toNat

/-- Characters that do not separate letters of one word. -/
def isCaseIgnorable (c : Char) : Bool :=
  inRanges caseIgnorableRanges c.toNat

/-- The next letter that counts has case. -/
def startsCased (text : Text) : Bool :=
  match text.dropWhile isCaseIgnorable with
  | [] => false
  | c :: _ => isCased c

/-- The lower-case form of a character that does not depend on its neighbours. -/
def lowerChar (c : Char) : Text :=
  if c.toNat < 128 then [c.toLower]
  else if c == 'İ' then ['i', '\u0307']
  else match CaseRun.find? lowerRuns c.toNat <|> CaseRun.find? unfoldedRuns c.toNat with
    | some code => [Char.ofNat code]
    | none => [c]

/-- Lower-cases a text that follows the characters of `before`, nearest first. A capital sigma
that ends a word becomes the final small sigma. -/
def lowerAfter (before : Text) : Text → Text
  | [] => []
  | 'Σ' :: rest =>
    let sigma := if startsCased before && !startsCased rest then 'ς' else 'σ'
    sigma :: lowerAfter ('Σ' :: before) rest
  | c :: rest => lowerChar c ++ lowerAfter (c :: before) rest

/-- The text in lower case. -/
def lowerText (text : Text) : Text :=
  lowerAfter [] text

/-- The character that stands for all characters which differ from it in case only. -/
def foldChar (c : Char) : Char :=
  if c.toNat < 128 then c.toLower
  else match CaseRun.find? foldRuns c.toNat with
    | some code => Char.ofNat code
    | none => match CaseRun.find? lowerRuns c.toNat with
      | some code => Char.ofNat code
      | none => c

/-- Two texts that differ in case only, character by character. -/
def sameFold (a b : Text) : Bool :=
  a.map foldChar == b.map foldChar

end MarkupTemplate
