import MarkupTemplate.Proofs.Data.Flattening
import MarkupTemplate.Yaml.Data

namespace MarkupTemplate

/-- Data as it is handed over. -/
inductive Given where
  | value (value : Value)
  | fields (fields : List (Text × Value))
  | model (model : Model)
  | yaml (value : Yaml)

/-- The model that data is turned into. -/
def Given.toModel : Given → Model
  | .value given => .ofValue given
  | .fields given => .ofFields given
  | .model given => given
  | .yaml given => given.toModel

/-- A value that JSON can have: no record has a name twice, and integers are words. -/
inductive Value.WellFormed : Value → Prop
  | null : WellFormed .null
  | bool {b : Bool} : WellFormed (.bool b)
  | integer {n : Int} : inWord n = true → WellFormed (.number (.integer n))
  | double {x : Double} : WellFormed (.number (.double x))
  | text {text : Text} : WellFormed (.text text)
  | list {items : List Value} : (∀ item ∈ items, item.WellFormed) → WellFormed (.list items)
  | record {fields : List (Text × Value)} : (Table.names fields).Nodup →
      (∀ field ∈ fields, field.2.WellFormed) → WellFormed (.record fields)

namespace Yaml

mutual

/-- The YAML value with the structure of a value. -/
def ofValue : Value → Yaml
  | .null => .null
  | .bool b => .bool b
  | .number (.integer n) => .integer n
  | .number (.double x) => .float (.finite x)
  | .text t => .text t
  | .list items => .sequence (ofValues items)
  | .record fields => .mapping (ofFields fields)

/-- The items of a list as YAML values. -/
def ofValues : List Value → List Yaml
  | [] => []
  | item :: items => ofValue item :: ofValues items

/-- The fields of a record as entries of a mapping. -/
def ofFields : List (Text × Value) → List (Yaml × Yaml)
  | [] => []
  | (name, value) :: fields => (.text name, ofValue value) :: ofFields fields

end

mutual

/-- A YAML value without the tags around its values. -/
def untagged : Yaml → Yaml
  | .null => .null
  | .bool b => .bool b
  | .integer n => .integer n
  | .float x => .float x
  | .text t => .text t
  | .sequence items => .sequence (untaggedItems items)
  | .mapping entries => .mapping (untaggedEntries entries)
  | .tagged _ value => value.untagged

/-- The items of a sequence without tags. -/
def untaggedItems : List Yaml → List Yaml
  | [] => []
  | item :: items => item.untagged :: untaggedItems items

/-- The entries of a mapping without tags around their values. Keys stay as they are. -/
def untaggedEntries : List (Yaml × Yaml) → List (Yaml × Yaml)
  | [] => []
  | (key, value) :: entries => (key, value.untagged) :: untaggedEntries entries

end

theorem toValues_ofValues {items : List Value} (h : ∀ item ∈ items, (ofValue item).toValue = item) :
    toValues (ofValues items) = items := by
  induction items with
  | nil => rw [ofValues, toValues]
  | cons item items ih =>
    obtain ⟨first, rest⟩ := List.forall_mem_cons.mp h
    rw [ofValues, toValues, first, ih rest]

theorem toFields_ofFields {fields : List (Text × Value)}
    (h : ∀ field ∈ fields, (ofValue field.2).toValue = field.2) :
    toFields (ofFields fields) = fields := by
  induction fields with
  | nil => rw [ofFields, toFields]
  | cons field fields ih =>
    obtain ⟨first, rest⟩ := List.forall_mem_cons.mp h
    rw [ofFields, toFields, keyText, first, ih rest]

/-- Words of 64 bits stay integers, signed or not. -/
theorem integerValue_of_inWord {n : Int} (h : inWord n = true) :
    integerValue n = .number (.integer n) := by
  obtain ⟨least, greatest⟩ : -(wordLimit : Int) ≤ 2 * n ∧ n < wordLimit := by
    simpa [inWord] using h
  unfold integerValue
  split
  next => rfl
  next signed =>
    have unsigned : 0 ≤ n := by
      by_contra negative
      exact signed ⟨least, by omega⟩
    rw [if_pos ⟨unsigned, greatest⟩]

/-- The YAML value with the structure of a value is turned into that value. -/
theorem toValue_ofValue {value : Value} (h : value.WellFormed) :
    (ofValue value).toValue = value := by
  induction h with
  | null | bool | text => rw [ofValue, toValue]
  | integer fits => rw [ofValue, toValue, integerValue_of_inWord fits]
  | double => rw [ofValue, toValue, floatValue]
  | list _ ih => rw [ofValue, toValue, toValues_ofValues ih]
  | record distinct _ ih =>
    rw [ofValue, toValue, toFields_ofFields ih, Table.ofPairs_of_nodup distinct]

mutual

/-- Tags do not count. -/
theorem toValue_untagged (yaml : Yaml) : yaml.untagged.toValue = yaml.toValue := by
  cases yaml with
  | null | bool | integer | float | text => rw [untagged]
  | sequence items => rw [untagged, toValue, toValue, toValues_untaggedItems items]
  | mapping entries => rw [untagged, toValue, toValue, toFields_untaggedEntries entries]
  | tagged tag value => rw [untagged, toValue, toValue_untagged value]

theorem toValues_untaggedItems (items : List Yaml) :
    toValues (untaggedItems items) = toValues items := by
  cases items with
  | nil => rw [untaggedItems]
  | cons item items =>
    rw [untaggedItems, toValues, toValues, toValue_untagged item, toValues_untaggedItems items]

theorem toFields_untaggedEntries (entries : List (Yaml × Yaml)) :
    toFields (untaggedEntries entries) = toFields entries := by
  match entries with
  | [] => rw [untaggedEntries]
  | (key, value) :: entries =>
    rw [untaggedEntries, toFields, toFields, toValue_untagged value,
      toFields_untaggedEntries entries]

end

end Yaml

namespace Model

theorem ofValue_record (fields : List (Text × Value)) :
    ofValue (.record fields) = ofFields fields := by
  rw [ofValue, Value.flatten]
  rfl

/-- The model of a record is that record, flattened, and any other model of a value is empty. -/
theorem toValue_ofValue (value : Value) :
    (ofValue value).toValue = value.flatten ∨ ofValue value = {} := by
  rw [ofValue]
  split
  next flat => exact .inl flat.symm
  next => exact .inr rfl

/-- A model that is handed over as a value once more is the same model. -/
theorem ofValue_toValue (value : Value) : ofValue (ofValue value).toValue = ofValue value := by
  rcases toValue_ofValue value with flat | empty
  · rw [flat, ofValue, ofValue, Value.flatten_flatten]
  · rw [empty]
    rfl

end Model

namespace Given

/-- Data comes to the same model as a value, as the fields of that value, as the model of it, as
that model once more in a record, and as a YAML value that has its structure when tags are left
out. -/
theorem models_agree {value : Value} (h : value.WellFormed) :
    let model := Model.ofValue value
    (Given.value value).toModel = model ∧
      (∀ fields, value = .record fields → (Given.fields fields).toModel = model) ∧
      (Given.model model).toModel = model ∧
      (Given.value model.toValue).toModel = model ∧
      (Given.fields model.fields).toModel = model ∧
      ∀ yaml : Yaml, yaml.untagged = .ofValue value → (Given.yaml yaml).toModel = model := by
  have again := Model.ofValue_toValue value
  refine ⟨rfl, fun fields he => ?_, rfl, again, ?_, fun yaml same => ?_⟩
  · rw [he, Model.ofValue_record]
    rfl
  · exact (Model.ofValue_record _).symm.trans again
  · have turned : yaml.toValue = value := by
      rw [← Yaml.toValue_untagged, same, Yaml.toValue_ofValue h]
    exact congrArg Model.ofValue turned

/-- Names that differ in case only, outside a list and in it, and words of both signs. -/
def mixedData : Value :=
  .record [("B".toList, .null), ("a".toList, .text "x".toList),
    ("b".toList, .list [.record [("K".toList, .number (.integer (-9223372036854775808))),
      ("k".toList, .number (.integer 18446744073709551615))], .number (.double (.zero true))])]

/-- The same data in YAML, with tags. -/
def mixedYaml : Yaml :=
  .tagged "t".toList (.mapping [(.text "B".toList, .tagged "u".toList (.tagged "v".toList .null)),
    (.text "a".toList, .text "x".toList),
    (.text "b".toList, .tagged "w".toList (.sequence
      [.mapping [(.text "K".toList, .tagged "i".toList (.integer (-9223372036854775808))),
        (.text "k".toList, .integer 18446744073709551615)], .float (.finite (.zero true))]))])

theorem wellFormed_mixedData : mixedData.WellFormed := by
  refine .record (by decide +kernel) ?_
  simp only [List.forall_mem_cons, List.not_mem_nil, false_imp_iff, implies_true, and_true]
  refine ⟨.null, .text, .list ?_⟩
  simp only [List.forall_mem_cons, List.not_mem_nil, false_imp_iff, implies_true, and_true]
  refine ⟨.record (by decide +kernel) ?_, .double⟩
  simp only [List.forall_mem_cons, List.not_mem_nil, false_imp_iff, implies_true, and_true]
  exact ⟨.integer (by decide +kernel), .integer (by decide +kernel)⟩

theorem models_agree_mixed :
    mixedData.WellFormed ∧ mixedYaml.untagged = .ofValue mixedData ∧
      (Given.yaml mixedYaml).toModel = Model.ofValue mixedData := by
  have same : mixedYaml.untagged = .ofValue mixedData := by rfl
  exact ⟨wellFormed_mixedData, same, (models_agree wellFormed_mixedData).2.2.2.2.2 mixedYaml same⟩

end Given

end MarkupTemplate
