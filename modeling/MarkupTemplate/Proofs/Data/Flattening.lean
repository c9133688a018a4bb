import Mathlib.Data.List.Induction
import MarkupTemplate.Data.Value
import MarkupTemplate.Proofs.Text.LowerCase

namespace MarkupTemplate

namespace Table

variable {α : Type}

theorem ofPairs_concat (pairs : List (Text × α)) (pair : Text × α) :
    ofPairs (pairs ++ [pair]) = (ofPairs pairs).insert pair.1 pair.2 :=
  List.foldl_append ..

theorem insert_of_notMem {name : Text} (value : α) {table : Table α} (h : name ∉ table.names) :
    table.insert name value = table ++ [(name, value)] := by
  induction table with
  | nil => rfl
  | cons entry rest ih =>
    have hne : entry.1 ≠ name := fun he => h (he ▸ List.mem_cons_self)
    have hr : name ∉ names rest := fun hm => h (List.mem_cons_of_mem _ hm)
    rw [insert, if_neg hne, ih hr]
    rfl

/-- The names of a filled table are the names given, each where it first came. -/
theorem names_ofPairs (pairs : List (Text × α)) :
    (ofPairs pairs).names = (pairs.map Prod.fst).eraseDups := by
  induction pairs using List.reverseRecOn with
  | nil => rfl
  | append_singleton pairs pair ih =>
    have known : pair.1 ∈ (ofPairs pairs).names ↔ pair.1 ∈ pairs.map Prod.fst := by
      rw [ih, List.mem_eraseDups]
    rw [ofPairs_concat, names_insert, List.map_append, List.eraseDups_append, ← ih]
    by_cases hm : pair.1 ∈ pairs.map Prod.fst
    · rw [if_pos (known.mpr hm)]
      simp [List.removeAll, hm]
    · rw [if_neg (fun h => hm (known.mp h))]
      simp [List.removeAll, hm, List.eraseDups_cons]

theorem nodup_names_ofPairs (pairs : List (Text × α)) : (ofPairs pairs).names.Nodup := by
  induction pairs using List.reverseRecOn with
  | nil => exact List.nodup_nil
  | append_singleton pairs pair ih =>
    rw [ofPairs_concat, names_insert]
    split
    next => exact ih
    next hm =>
      refine List.nodup_append.mpr ⟨ih, List.pairwise_singleton _ _, ?_⟩
      rintro name hn other ho rfl
      exact hm (List.mem_singleton.mp ho ▸ hn)

theorem mem_of_mem_ofPairs {pairs : List (Text × α)} {entry : Text × α}
    (h : entry ∈ ofPairs pairs) : entry ∈ pairs := by
  induction pairs using List.reverseRecOn with
  | nil => exact h
  | append_singleton pairs pair ih =>
    rw [ofPairs_concat] at h
    rcases mem_insert h with rfl | h
    · exact List.mem_append_right _ List.mem_cons_self
    · exact List.mem_append_left _ (ih h)

/-- A table filled with the entries of a table is that table. -/
theorem ofPairs_of_nodup {table : Table α} (h : table.names.Nodup) : ofPairs table = table := by
  induction table using List.reverseRecOn with
  | nil => rfl
  | append_singleton table entry ih =>
    rw [names, List.map_append] at h
    obtain ⟨hn, -, apart⟩ := List.nodup_append.mp h
    have new : entry.1 ∉ names table := fun hm => apart _ hm _ List.mem_cons_self rfl
    rw [ofPairs_concat, ih hn, insert_of_notMem _ new]

/-- Of several values for a name the last one is found. -/
theorem find?_ofPairs (name : Text) (pairs : List (Text × α)) :
    (ofPairs pairs).find? name = (pairs.reverse.find? (·.1 == name)).map Prod.snd := by
  induction pairs using List.reverseRecOn with
  | nil => rfl
  | append_singleton pairs pair ih =>
    rw [ofPairs_concat, List.reverse_append, List.reverse_singleton, List.singleton_append]
    by_cases hn : pair.1 = name
    · rw [← hn, find?_insert_self, List.find?_cons_of_pos (by simp)]
      rfl
    · rw [find?_insert_ne (Ne.symm hn), ih, List.find?_cons_of_neg (by simpa using hn)]

theorem find?_of_mem {table : Table α} (h : table.names.Nodup) {entry : Text × α}
    (hm : entry ∈ table) : table.find? entry.1 = some entry.2 := by
  induction table with
  | nil => cases hm
  | cons first rest ih =>
    obtain ⟨hnot, hr⟩ := List.nodup_cons.mp h
    rcases List.mem_cons.mp hm with rfl | hm
    · rw [find?, if_pos rfl]
    · have hne : first.1 ≠ entry.1 := fun he => hnot (he ▸ List.mem_map_of_mem hm)
      rw [find?, if_neg hne, ih hr hm]

end Table

/-- The value of the last field whose name becomes `lowered` in lower case. -/
def lastLowered? (lowered : Text) (fields : List (Text × Value)) : Option Value :=
  (fields.reverse.find? fun field => lowerText field.1 == lowered).map Prod.snd

/-- Among the fields, `value` belongs to the last whose name becomes `lowered` in lower case. -/
def IsLastLowered (lowered : Text) (value : Value) (fields : List (Text × Value)) : Prop :=
  ∃ before name after, fields = before ++ (name, value) :: after ∧ lowerText name = lowered ∧
    ∀ field ∈ after, lowerText field.1 ≠ lowered

theorem lastLowered?_eq_some_iff {lowered : Text} {value : Value} {fields : List (Text × Value)} :
    lastLowered? lowered fields = some value ↔ IsLastLowered lowered value fields := by
  constructor
  · intro h
    obtain ⟨⟨name, _⟩, hf, rfl⟩ := Option.map_eq_some_iff.mp h
    obtain ⟨hl, after, before, he, hnot⟩ := List.find?_eq_some_iff_append.mp hf
    refine ⟨before.reverse, name, after.reverse, ?_, beq_iff_eq.mp hl, fun field hm => ?_⟩
    · rw [← fields.reverse_reverse, he]
      simp
    · simpa using hnot field (List.mem_reverse.mp hm)
  · rintro ⟨before, name, after, rfl, hl, hnot⟩
    have found : ((before ++ (name, value) :: after).reverse.find?
        fun field => lowerText field.1 == lowered) = some (name, value) := by
      refine List.find?_eq_some_iff_append.mpr
        ⟨beq_iff_eq.mpr hl, after.reverse, before.reverse, by simp, fun field hm => ?_⟩
      simpa using hnot field (List.mem_reverse.mp hm)
    rw [lastLowered?, found]
    rfl

namespace Value

/-- What holds of a record if it holds of the values of its fields, and of all other values, holds
of every value. -/
theorem fieldInduction {p : Value → Prop}
    (other : ∀ value, (∀ fields, value ≠ .record fields) → p value)
    (record : ∀ fields, (∀ field ∈ fields, p field.2) → p (.record fields)) (value : Value) :
    p value := by
  match value with
  | .record fields => exact record fields fun field _ => fieldInduction other record field.2
  | .null | .bool _ | .number _ | .text _ | .list _ => exact other _ fun _ he => nomatch he
termination_by sizeOf value
decreasing_by
  have inside := List.sizeOf_lt_of_mem ‹field ∈ fields›
  obtain ⟨name, inner⟩ := field
  simp only [Value.record.sizeOf_spec, Prod.mk.sizeOf_spec] at inside ⊢
  omega

theorem flattenFields_eq (fields : List (Text × Value)) :
    flattenFields fields = fields.map fun field => (lowerText field.1, field.2.flatten) := by
  induction fields with
  | nil => rw [flattenFields, List.map_nil]
  | cons field fields ih => rw [flattenFields, ih, List.map_cons]

theorem flatten_record (fields : List (Text × Value)) :
    (record fields).flatten =
      .record (Table.ofPairs (fields.map fun field => (lowerText field.1, field.2.flatten))) := by
  rw [flatten, flattenFields_eq]

theorem flatten_of_ne_record {value : Value} (h : ∀ fields, value ≠ .record fields) :
    value.flatten = value := by
  cases value with
  | record fields => exact absurd rfl (h fields)
  | null | bool | number | text | list => rw [flatten]

/-- The names of a flattened record: those of its fields in lower case, each where it first
came. -/
theorem names_flattened (fields : List (Text × Value)) :
    (Table.ofPairs (fields.map fun field => (lowerText field.1, field.2.flatten))).names =
      (fields.map fun field => lowerText field.1).eraseDups := by
  rw [Table.names_ofPairs, List.map_map]
  rfl

/-- What a flattened record has for a name is the flattened value of the last field with it. -/
theorem find?_flattened (lowered : Text) (fields : List (Text × Value)) :
    (Table.ofPairs (fields.map fun field => (lowerText field.1, field.2.flatten))).find? lowered =
      (lastLowered? lowered fields).map flatten := by
  rw [Table.find?_ofPairs, ← List.map_reverse, List.find?_map, lastLowered?]
  simp only [Option.map_map]
  rfl

/-- Values whose every record, as far as records alone lead to it, has distinct names in lower
case. -/
inductive Flat : Value → Prop
  | record {fields : List (Text × Value)} : (Table.names fields).Nodup →
      (∀ field ∈ fields, lowerText field.1 = field.1) → (∀ field ∈ fields, field.2.Flat) →
      Flat (.record fields)
  | other {value : Value} : (∀ fields, value ≠ .record fields) → Flat value

theorem flat_flatten (value : Value) : value.flatten.Flat := by
  induction value using fieldInduction with
  | other value h =>
    rw [flatten_of_ne_record h]
    exact .other h
  | record fields ih =>
    rw [flatten_record]
    have given : ∀ entry ∈ Table.ofPairs
        (fields.map fun field => (lowerText field.1, field.2.flatten)),
        ∃ field ∈ fields, (lowerText field.1, field.2.flatten) = entry :=
      fun entry he => List.mem_map.mp (Table.mem_of_mem_ofPairs he)
    refine .record (Table.nodup_names_ofPairs _) (fun entry he => ?_) (fun entry he => ?_)
    · obtain ⟨field, -, rfl⟩ := given entry he
      exact lowerText_lowerText field.1
    · obtain ⟨field, hf, rfl⟩ := given entry he
      exact ih field hf

theorem Flat.flatten {value : Value} (h : value.Flat) : value.flatten = value := by
  induction h with
  | other h => exact flatten_of_ne_record h
  | @record fields hn hl _ ih =>
    have same : fields.map (fun field => (lowerText field.1, field.2.flatten)) = fields :=
      (List.map_congr_left fun field hf => by rw [hl field hf, ih field hf, id]).trans
        (List.map_id fields)
    rw [flatten_record, same, Table.ofPairs_of_nodup hn]

/-- Flattening a flattened value changes nothing. -/
@[simp] theorem flatten_flatten (value : Value) : value.flatten.flatten = value.flatten :=
  value.flat_flatten.flatten

/-- A value and what it is when flattened. The names of a record are lowered, each stands where it
first came, and has the flattened value of the last field with it; nothing else changes. -/
inductive Flattens : Value → Value → Prop
  | record {fields result : List (Text × Value)} (last : Text → Value) :
      Table.names result = (fields.map fun field => lowerText field.1).eraseDups →
      (∀ entry ∈ result, IsLastLowered entry.1 (last entry.1) fields) →
      (∀ entry ∈ result, Flattens (last entry.1) entry.2) →
      Flattens (.record fields) (.record result)
  | other {value : Value} : (∀ fields, value ≠ .record fields) → Flattens value value

theorem last_of_mem_flattened {fields : List (Text × Value)} {entry : Text × Value}
    (h : entry ∈ Table.ofPairs
      (fields.map fun field => (lowerText field.1, field.2.flatten))) :
    ∃ last, lastLowered? entry.1 fields = some last ∧ last.flatten = entry.2 := by
  have found := Table.find?_of_mem (Table.nodup_names_ofPairs _) h
  rw [find?_flattened] at found
  exact Option.map_eq_some_iff.mp found

theorem flattens_flatten (value : Value) : Flattens value value.flatten := by
  induction value using fieldInduction with
  | other value h =>
    rw [flatten_of_ne_record h]
    exact .other h
  | record fields ih =>
    rw [flatten_record]
    refine .record (fun name => (lastLowered? name fields).getD .null) (names_flattened fields)
      (fun entry he => ?_) (fun entry he => ?_)
    · obtain ⟨last, hl, -⟩ := last_of_mem_flattened he
      rw [hl]
      exact lastLowered?_eq_some_iff.mp hl
    · obtain ⟨last, hl, hv⟩ := last_of_mem_flattened he
      obtain ⟨before, name, after, hs, -⟩ := lastLowered?_eq_some_iff.mp hl
      rw [hl, ← hv]
      exact ih (name, last) (by rw [hs]; simp)

/-- A table is given by its names and the value that belongs to each. -/
theorem eq_map_names {table : Table Value} {value : Text → Value}
    (h : ∀ entry ∈ table, value entry.1 = entry.2) :
    table = table.names.map fun name => (name, value name) := by
  rw [Table.names, List.map_map]
  exact (List.map_id table).symm.trans
    (List.map_congr_left fun entry he => Prod.ext rfl (h entry he).symm)

theorem Flattens.eq_flatten {value result : Value} (h : Flattens value result) :
    result = value.flatten := by
  induction h with
  | other h => exact (flatten_of_ne_record h).symm
  | @record fields result last hn hl _ ih =>
    let valueOf (name : Text) : Value := ((lastLowered? name fields).getD .null).flatten
    have given : ∀ entry ∈ result, valueOf entry.1 = entry.2 := by
      intro entry he
      rw [ih entry he]
      simp only [valueOf, lastLowered?_eq_some_iff.mpr (hl entry he), Option.getD_some]
    have made : ∀ entry ∈ Table.ofPairs
        (fields.map fun field => (lowerText field.1, field.2.flatten)),
        valueOf entry.1 = entry.2 := by
      intro entry he
      obtain ⟨last, hl, hv⟩ := last_of_mem_flattened he
      simp only [valueOf, hl, Option.getD_some, hv]
    rw [flatten_record, eq_map_names given, eq_map_names made, hn, names_flattened]

/-- A value within another one, to which records alone lead. -/
inductive Within (inner : Value) : Value → Prop
  | self : Within inner inner
  | field {fields : List (Text × Value)} {field : Text × Value} :
      field ∈ fields → Within inner field.2 → Within inner (.record fields)

theorem Flat.within {inner value : Value} (h : value.Flat) (hw : Within inner value) :
    inner.Flat := by
  induction hw with
  | self => exact h
  | @field fields field hf _ ih =>
    cases h with
    | record _ _ hv => exact ih (hv field hf)
    | other hr => exact absurd rfl (hr fields)

/-- Flattening lowers the names of the records that records alone lead to, keeps of the fields with
one name the place of the first and the value of the last, and changes nothing else. So these names
are in lower case afterwards, and flattening once more changes nothing. -/
theorem flatten_lowers (value : Value) :
    (∀ result, Flattens value result ↔ result = value.flatten) ∧
      (∀ fields, Within (.record fields) value.flatten →
        ∀ field ∈ fields, lowerText field.1 = field.1) ∧
      value.flatten.flatten = value.flatten := by
  refine ⟨fun result => ⟨Flattens.eq_flatten, ?_⟩, fun fields hw => ?_, value.flatten_flatten⟩
  · rintro rfl
    exact value.flattens_flatten
  · cases value.flat_flatten.within hw with
    | record _ hl _ => exact hl
    | other hr => exact absurd rfl (hr fields)

end Value

end MarkupTemplate
