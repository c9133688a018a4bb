import MarkupTemplate.Data.Table
import MarkupTemplate.Number.Basic
import MarkupTemplate.Text.LetterCase

namespace MarkupTemplate

/-- A value of the data. The fields of a record are in order. -/
inductive Value where
  | null
  | bool (value : Bool)
  | number (value : Number)
  | text (value : Text)
  | list (items : List Value)
  | record (fields : List (Text × Value))
deriving Repr, Inhabited

/-- A character within quotes in JSON text. -/
def jsonChar (c : Char) : Text :=
  match c with
  | '"' => ['\\', '"']
  | '\\' => ['\\', '\\']
  | '\x08' => ['\\', 'b']
  | '\x0c' => ['\\', 'f']
  | '\n' => ['\\', 'n']
  | '\r' => ['\\', 'r']
  | '\t' => ['\\', 't']
  | _ =>
    if c.toNat < 0x20 then
      ['\\', 'u', '0', '0', Nat.digitChar (c.toNat / 16), Nat.digitChar (c.toNat % 16)]
    else [c]

/-- A text in JSON quotes. -/
def jsonQuoted (text : Text) : Text :=
  '"' :: text.flatMap jsonChar ++ ['"']

/-- `true` or `false`. -/
def boolText (b : Bool) : Text :=
  if b then "true".toList else "false".toList

namespace Value

mutual

/-- A value as JSON text without spaces. -/
def json : Value → Text
  | .null => "null".toList
  | .bool b => boolText b
  | .number n => n.text jsonLayout
  | .text t => jsonQuoted t
  | .list items => '[' :: joinText [','] (jsonItems items) ++ [']']
  | .record fields => '{' :: joinText [','] (jsonFields fields) ++ ['}']

/-- The items of a list as JSON text. -/
def jsonItems : List Value → List Text
  | [] => []
  | item :: items => item.json :: jsonItems items

/-- The fields of a record as JSON text. -/
def jsonFields : List (Text × Value) → List Text
  | [] => []
  | (name, value) :: fields => (jsonQuoted name ++ ':' :: value.json) :: jsonFields fields

end

/-- The text that stands for a value in a rendered document: nothing for null, a text as it is, and
JSON for lists and records. -/
def display : Value → Text
  | .null => []
  | .text t => t
  | value => value.json

/-- Values that fail a condition: null, false, zero and the empty text. -/
def isFalsy : Value → Bool
  | .null => true
  | .bool b => !b
  | .number n => n.isZero
  | .text t => t.isEmpty
  | .list _ => false
  | .record _ => false

mutual

/-- Lower-cases the names of a record and of the records directly in its fields, and so on. Of
two names that become equal the place of the first and the value of the last is kept. What is
in lists stays as it is. -/
def flatten : Value → Value
  | .record fields => .record (Table.ofPairs (flattenFields fields))
  | .null => .null
  | .bool b => .bool b
  | .number n => .number n
  | .text t => .text t
  | .list items => .list items

/-- The fields with names in lower case and flattened values, one after the other. -/
def flattenFields : List (Text × Value) → List (Text × Value)
  | [] => []
  | (name, value) :: fields => (lowerText name, value.flatten) :: flattenFields fields

end

end Value

end MarkupTemplate
