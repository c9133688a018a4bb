import MarkupTemplate.Data.Model
import MarkupTemplate.Yaml.Printer

namespace MarkupTemplate

namespace Yaml

/-- The name of a field whose key is a YAML value. A key that is a collection or has a tag goes by
its YAML text. -/
def keyText : Yaml → Text
  | .text name => name
  | .integer n => intText n
  | .float x => floatText x
  | .bool b => boolText b
  | .null => []
  | key => ((key.print?.getD []).reverse.dropWhile MarkupTemplate.isBlank).reverse

/-- An integer as a value: a signed word or an unsigned one, or else the nearest double. -/
def integerValue (n : Int) : Value :=
  if -(wordLimit : Int) ≤ 2 * n ∧ 2 * n < wordLimit then .number (.integer n)
  else if 0 ≤ n ∧ n < wordLimit then .number (.integer n)
  else ((Double.ofDecimal? (n < 0) n.natAbs 0).map fun x => .number (.double x)).getD .null

/-- A float as a value; only finite ones are numbers. -/
def floatValue : YamlFloat → Value
  | .finite x => .number (.double x)
  | _ => .null

mutual

/-- A YAML value without its tags. -/
def toValue : Yaml → Value
  | .null => .null
  | .bool b => .bool b
  | .integer n => integerValue n
  | .float x => floatValue x
  | .text t => .text t
  | .sequence items => .list (toValues items)
  | .mapping entries => .record (Table.ofPairs (toFields entries))
  | .tagged _ value => value.toValue

/-- The items of a sequence as values. -/
def toValues : List Yaml → List Value
  | [] => []
  | item :: items => item.toValue :: toValues items

/-- The entries of a mapping as named values. -/
def toFields : List (Yaml × Yaml) → List (Text × Value)
  | [] => []
  | (key, value) :: entries => (key.keyText, value.toValue) :: toFields entries

end

/-- The model of a YAML value. -/
def toModel (value : Yaml) : Model :=
  Model.ofValue value.toValue

end Yaml

end MarkupTemplate
