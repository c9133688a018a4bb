import MarkupTemplate.Proofs.Data.GivenData
import MarkupTemplate.Proofs.Data.PathCase

namespace MarkupTemplate

namespace Model

/-- The models that come about: the empty one, those of data that is handed over, and what they
become when names are set. A model that is handed over has come about itself. -/
inductive Obtained : Model → Prop
  | empty : Obtained {}
  | given {given : Given} : (∀ model, given = .model model → Obtained model) →
      Obtained given.toModel
  | set {model : Model} (name : Text) (value : Value) :
      Obtained model → Obtained (model.set name value)

/-- The names of a model are distinct and in lower case. -/
structure Named (model : Model) : Prop where
  nodup : (Table.names model.fields).Nodup
  lower : ∀ name ∈ Table.names model.fields, lowerText name = name

variable {model : Model} {name other text : Text} {path : Path}

theorem named_empty : Named {} where
  nodup := List.nodup_nil
  lower := by simp [Table.names]

theorem named_ofFields (fields : List (Text × Value)) : (ofFields fields).Named where
  nodup := Table.nodup_names_ofPairs _
  lower := by
    have names : Table.names (ofFields fields).fields =
        (fields.map fun field => lowerText field.1).eraseDups := by
      rw [ofFields, Value.flattenFields_eq, Value.names_flattened]
    intro name hm
    rw [names, List.mem_eraseDups] at hm
    obtain ⟨field, -, rfl⟩ := List.mem_map.mp hm
    exact lowerText_lowerText field.1

theorem named_ofValue (value : Value) : (ofValue value).Named := by
  cases value with
  | record fields => exact ofValue_record fields ▸ named_ofFields fields
  | null | bool | number | text | list =>
    rw [ofValue, Value.flatten]
    exact named_empty

theorem Named.set (h : model.Named) (name : Text) (value : Value) :
    (model.set name value).Named := by
  have names := Table.names_insert (lowerText name) value model.fields
  constructor
  · rw [Model.set, names]
    split
    next => exact h.nodup
    next new =>
      refine List.nodup_append.mpr ⟨h.nodup, List.pairwise_singleton _ _, ?_⟩
      rintro known hk last hl rfl
      exact new (List.mem_singleton.mp hl ▸ hk)
  · intro known hk
    rw [Model.set, names] at hk
    split at hk
    next => exact h.lower known hk
    next =>
      rcases List.mem_append.mp hk with hk | hk
      · exact h.lower known hk
      · rw [List.mem_singleton.mp hk, lowerText_lowerText]

theorem Obtained.named (h : model.Obtained) : model.Named := by
  induction h with
  | empty => exact named_empty
  | @given given _ ih =>
    cases given with
    | value value => exact named_ofValue value
    | fields fields => exact named_ofFields fields
    | model model => exact ih model rfl
    | yaml yaml => exact named_ofValue yaml.toValue
  | set name value _ ih => exact ih.set name value

theorem fieldNamed?_set (same : lowerText other = lowerText name) (value : Value) :
    fieldNamed? other (model.set name value).fields = some value := by
  rw [fieldNamed?, same, set, Table.find?_insert_self]

/-- A field that is put in does not agree with other names. -/
theorem find?_insert_lowered {lowered : Text} (apart : lowerText name ≠ lowered) (value : Value)
    (fields : List (Text × Value)) :
    List.find? (fun field => lowerText field.1 == lowered)
        (Table.insert (lowerText name) value fields) =
      fields.find? fun field => lowerText field.1 == lowered := by
  induction fields with
  | nil => simp [Table.insert, apart]
  | cons field fields ih =>
    by_cases hn : field.1 = lowerText name
    · simp [Table.insert, hn, apart]
    · rw [Table.insert, if_neg hn, List.find?_cons, List.find?_cons, ih]

theorem fieldNamed?_set_other (apart : lowerText other ≠ lowerText name) (value : Value) :
    fieldNamed? other (model.set name value).fields = fieldNamed? other model.fields := by
  rw [fieldNamed?, fieldNamed?, set, Table.find?_insert_ne apart,
    find?_insert_lowered (Ne.symm apart)]

theorem get?_set (h : WritesPath text path) (same : lowerText path.head = lowerText name)
    (value : Value) : (model.set name value).get? text = value.followAll? path.segments := by
  rw [get?_of_writesPath h, follow?, fieldNamed?_set same, Option.bind_some]

theorem get?_set_other (apart : ∀ path, WritesPath text path → lowerText path.head ≠ lowerText name)
    (value : Value) : (model.set name value).get? text = model.get? text := by
  by_cases writes : ∃ path, WritesPath text path
  · obtain ⟨path, hw⟩ := writes
    rw [get?_of_writesPath hw, get?_of_writesPath hw, follow?, follow?,
      fieldNamed?_set_other (apart path hw)]
  · rw [get?_of_not_writesPath fun path hw => writes ⟨path, hw⟩,
      get?_of_not_writesPath fun path hw => writes ⟨path, hw⟩]

theorem writesPath_name (h : IsPathName name) : WritesPath name ⟨name, []⟩ := by
  simpa using WritesPath.intro h .nil

/-- However a model has come about, its names are distinct and in lower case. What is set under a
name is found by each path that begins with the name in any case, as the rest of the path leads
through it, and every other path finds what it has found before. -/
theorem obtained_set_law (h : model.Obtained) :
    (Table.names model.fields).Nodup ∧
      (∀ name ∈ Table.names model.fields, lowerText name = name) ∧
      ∀ name value, IsPathName name →
        (∀ text path, WritesPath text path → lowerText path.head = lowerText name →
          (model.set name value).get? text = value.followAll? path.segments) ∧
        (∀ text path, WritesPath text path → lowerText path.head = lowerText name →
          path.segments = [] → (model.set name value).get? text = some value) ∧
        (model.set name value).get? name = some value ∧
        ∀ text, (∀ path, WritesPath text path → lowerText path.head ≠ lowerText name) →
          (model.set name value).get? text = model.get? text := by
  refine ⟨h.named.nodup, h.named.lower, fun name value hn => ⟨?_, ?_, ?_, ?_⟩⟩
  · exact fun text path hw same => get?_set hw same value
  · intro text path hw same last
    rw [get?_set hw same, last]
    rfl
  · rw [get?_set (writesPath_name hn) rfl]
    rfl
  · exact fun text apart => get?_set_other apart value

/-- A name that ends in a sigma. -/
def sigmaModel : Model :=
  .ofValue (.record [("ΑΣ".toList, .null), ("B".toList, .bool true)])

/-- A list under a name that is not in lower case. -/
def listedValue : Value :=
  .record [("X".toList, .list [.text "z".toList])]

/-- Both sigmas become the final one, and what is in the new value is found in any case. -/
theorem obtained_set_law_sigma :
    sigmaModel.Obtained ∧ IsPathName "αΣ".toList ∧
      (sigmaModel.set "αΣ".toList listedValue).get? "Ας.x[0]".toList = some (.text "z".toList) ∧
      (sigmaModel.set "αΣ".toList listedValue).get? "b".toList = some (.bool true) := by
  have obtained : sigmaModel.Obtained :=
    @Obtained.given (.value _) fun _ h => nomatch h
  have hn : IsPathName "αΣ".toList := ⟨by decide, List.forall_mem_cons.mpr
    ⟨by decide +kernel, List.forall_mem_singleton.mpr (by decide +kernel)⟩⟩
  obtain ⟨_, _, law⟩ := obtained_set_law obtained
  obtain ⟨within, _, _, before⟩ := law "αΣ".toList listedValue hn
  have path : WritesPath "Ας.x[0]".toList ⟨"Ας".toList, [.key "x".toList, .index 0]⟩ :=
    Path.read?_eq_some_iff.mp (by decide +kernel)
  have other : Path.read? "b".toList = some ⟨"b".toList, []⟩ := by decide +kernel
  refine ⟨obtained, hn, ?_, ?_⟩
  · rw [within _ _ path (by decide +kernel)]
    rfl
  · rw [before _ fun found hw => ?_, get?, other]
    · rfl
    · cases (Path.read?_eq_some_iff.mpr hw).symm.trans other
      decide +kernel

end Model

end MarkupTemplate
