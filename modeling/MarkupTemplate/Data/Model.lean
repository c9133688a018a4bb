import MarkupTemplate.Data.Path

namespace MarkupTemplate

/-- Named values, the names in lower case. -/
structure Model where
  fields : Table Value := []
deriving Repr, Inhabited

namespace Model

/-- The model of a record, flattened; any other value gives the empty model. -/
def ofValue (value : Value) : Model :=
  match value.flatten with
  | .record fields => ⟨fields⟩
  | _ => {}

/-- The model of the fields of a record. -/
def ofFields (fields : Table Value) : Model :=
  ⟨Table.ofPairs (Value.flattenFields fields)⟩

/-- The value that a path leads to. -/
def follow? (model : Model) (path : Path) : Option Value :=
  (fieldNamed? path.head model.fields).bind (·.followAll? path.segments)

/-- The value at the path that a text writes. -/
def get? (model : Model) (text : Text) : Option Value :=
  (Path.read? text).bind model.follow?

/-- Binds a name. The value stays as it is. -/
def set (model : Model) (name : Text) (value : Value) : Model :=
  ⟨model.fields.insert (lowerText name) value⟩

/-- The model as one value. -/
def toValue (model : Model) : Value :=
  .record model.fields

end Model

end MarkupTemplate
