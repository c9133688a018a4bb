import MarkupTemplate.Data.Model
import MarkupTemplate.Proofs.Data.Flattening

namespace MarkupTemplate

/-- The value of the last field whose name agrees with `name` in lower case. -/
def lastNamed? (name : Text) (fields : List (Text × Value)) : Option Value :=
  lastLowered? (lowerText name) fields

/-- Among the fields, `value` belongs to the first whose name is `name` in lower case. If no name is
in lower case itself, it belongs to the first whose name becomes the same in lower case. -/
inductive IsFoundNamed (name : Text) (value : Value) (fields : List (Text × Value)) : Prop
  | lower {before after : List (Text × Value)} :
      fields = before ++ (lowerText name, value) :: after →
      (∀ field ∈ before, field.1 ≠ lowerText name) → IsFoundNamed name value fields
  | cased {before after : List (Text × Value)} {given : Text} :
      fields = before ++ (given, value) :: after → lowerText given = lowerText name →
      (∀ field ∈ fields, field.1 ≠ lowerText name) →
      (∀ field ∈ before, lowerText field.1 ≠ lowerText name) → IsFoundNamed name value fields

namespace Table

variable {α : Type} {name : Text} {table : Table α}

theorem find?_eq (name : Text) (table : Table α) :
    table.find? name = (List.find? (fun entry => entry.1 == name) table).map Prod.snd := by
  induction table with
  | nil => rfl
  | cons entry rest ih =>
    rw [find?, List.find?_cons]
    by_cases h : entry.1 = name
    · simp [h]
    · rw [if_neg h, beq_false_of_ne h, ih]

theorem find?_eq_some_iff {value : α} :
    table.find? name = some value ↔
      ∃ before after, table = before ++ (name, value) :: after ∧
        ∀ entry ∈ before, entry.1 ≠ name := by
  rw [find?_eq, Option.map_eq_some_iff]
  constructor
  · rintro ⟨⟨given, _⟩, he, rfl⟩
    obtain ⟨hn, before, after, rfl, hb⟩ := List.find?_eq_some_iff_append.mp he
    obtain rfl : given = name := beq_iff_eq.mp hn
    exact ⟨before, after, rfl, fun entry hm => by simpa using hb entry hm⟩
  · rintro ⟨before, after, he, hb⟩
    exact ⟨(name, value), List.find?_eq_some_iff_append.mpr
      ⟨beq_self_eq_true name, before, after, he, fun entry hm => by simpa using hb entry hm⟩, rfl⟩

theorem find?_eq_none_iff : table.find? name = none ↔ ∀ entry ∈ table, entry.1 ≠ name := by
  rw [find?_eq, Option.map_eq_none_iff, List.find?_eq_none]
  simp only [beq_iff_eq, ne_eq]

end Table

/-- What a look-up finds by its name. -/
theorem fieldNamed?_eq_some_iff {name : Text} {value : Value} {fields : List (Text × Value)} :
    fieldNamed? name fields = some value ↔ IsFoundNamed name value fields := by
  simp only [fieldNamed?]
  cases hf : Table.find? (lowerText name) fields with
  | some found =>
    constructor
    · rintro ⟨⟩
      obtain ⟨before, after, he, hb⟩ := Table.find?_eq_some_iff.mp hf
      exact .lower he hb
    · intro h
      cases h with
      | lower he hb => exact hf.symm.trans (Table.find?_eq_some_iff.mpr ⟨_, _, he, hb⟩)
      | cased _ _ hnone => cases hf.symm.trans (Table.find?_eq_none_iff.mpr hnone)
  | none =>
    have hnone := Table.find?_eq_none_iff.mp hf
    rw [Option.map_eq_some_iff]
    constructor
    · rintro ⟨⟨given, _⟩, hg, rfl⟩
      obtain ⟨hn, before, after, he, hb⟩ := List.find?_eq_some_iff_append.mp hg
      exact .cased he (beq_iff_eq.mp hn) hnone fun field hm => by simpa using hb field hm
    · intro h
      cases h with
      | lower he hb => cases hf.symm.trans (Table.find?_eq_some_iff.mpr ⟨_, _, he, hb⟩)
      | @cased before after given he hn _ hb =>
        exact ⟨(given, value), List.find?_eq_some_iff_append.mpr
          ⟨beq_iff_eq.mpr hn, before, after, he, fun field hm => by simpa using hb field hm⟩, rfl⟩

theorem fieldNamed?_eq_none_iff {name : Text} {fields : List (Text × Value)} :
    fieldNamed? name fields = none ↔ lastNamed? name fields = none := by
  have last : lastNamed? name fields = none ↔
      ∀ field ∈ fields, lowerText field.1 ≠ lowerText name := by
    rw [lastNamed?, lastLowered?, Option.map_eq_none_iff, List.find?_eq_none]
    simp only [List.mem_reverse, beq_iff_eq, ne_eq]
  rw [last]
  simp only [fieldNamed?]
  cases hf : Table.find? (lowerText name) fields with
  | some found =>
    refine iff_of_false (Option.some_ne_none found) fun h => ?_
    exact h _ (Table.mem_of_find? hf) (lowerText_lowerText name)
  | none =>
    rw [Option.map_eq_none_iff, List.find?_eq_none]
    simp only [beq_iff_eq, ne_eq]

/-- A look-up agrees with the last field exactly if the values are the same where both find one. -/
theorem fieldNamed?_last_iff {name : Text} {fields : List (Text × Value)} :
    (fieldNamed? name fields).map Value.flatten = (lastNamed? name fields).map Value.flatten ↔
      ∀ found last, IsFoundNamed name found fields →
        IsLastLowered (lowerText name) last fields → found.flatten = last.flatten := by
  have last (value : Value) : IsLastLowered (lowerText name) value fields ↔
      lastNamed? name fields = some value := lastLowered?_eq_some_iff.symm
  simp only [← fieldNamed?_eq_some_iff, last]
  cases hf : fieldNamed? name fields with
  | none => simp [fieldNamed?_eq_none_iff.mp hf]
  | some found =>
    cases hl : lastNamed? name fields with
    | none => cases hf.symm.trans (fieldNamed?_eq_none_iff.mpr hl)
    | some last => simp

/-- The name that a step has in a record; a number stands for its decimal numeral. -/
def Segment.name : Segment → Text
  | .key name => name
  | .index position => natText position

/-- The position that a step has in a list. -/
def Segment.position? : Segment → Option Nat
  | .key name => index? name
  | .index position => some position

namespace Value

/-- The part of a value that a step of a walk leads to. -/
def walk? : Value → Segment → Option Value
  | .record fields, segment => lastNamed? segment.name fields
  | .list items, segment => segment.position?.bind (items[·]?)
  | _, _ => none

/-- The part of a value that the steps of a walk lead to, one after the other. -/
def walkAll? (value : Value) (segments : List Segment) : Option Value :=
  segments.foldlM walk? value

/-- The part of the given data that a path leads to. A path begins with a name, so only a record has
parts. -/
def reach? : Value → Path → Option Value
  | .record fields, path => (lastNamed? path.head fields).bind (·.walkAll? path.segments)
  | _, _ => none

theorem follow?_record (fields : List (Text × Value)) (segment : Segment) :
    (record fields).follow? segment = fieldNamed? segment.name fields := by
  cases segment <;> rfl

theorem follow?_list (items : List Value) (segment : Segment) :
    (list items).follow? segment = segment.position?.bind (items[·]?) := by
  cases segment <;> rfl

theorem find?_of_flat {fields : List (Text × Value)} (h : Flat (.record fields))
    (lowered : Text) : Table.find? lowered fields = (lastLowered? lowered fields).map flatten := by
  have same := h.flatten
  rw [flatten_record, record.injEq] at same
  conv_lhs => rw [← same]
  exact find?_flattened lowered fields

/-- A flattened record has only one field for a name, which is the last and the first. -/
theorem fieldNamed?_of_flat {fields : List (Text × Value)} (h : Flat (.record fields))
    (name : Text) : fieldNamed? name fields = (lastNamed? name fields).map flatten := by
  rw [lastNamed?, ← find?_of_flat h]
  cases hf : Table.find? (lowerText name) fields with
  | some value => simp only [fieldNamed?, hf]
  | none =>
    have missing : fields.find? (fun field => lowerText field.1 == lowerText name) = none := by
      refine List.find?_eq_none.mpr fun field hm he => ?_
      cases h with
      | record hn hl _ =>
        have found := Table.find?_of_mem hn hm
        rw [← hl field hm, beq_iff_eq.mp he, hf] at found
        cases found
      | other hr => exact hr fields rfl
    simp only [fieldNamed?, hf, missing, Option.map_none]

/-- Flattening a value changes the walks through it by no more than flattening what they lead to. -/
theorem walk?_flatten (value : Value) (segment : Segment) :
    (value.flatten.walk? segment).map flatten = (value.walk? segment).map flatten := by
  cases value with
  | record fields =>
    have flat := flat_flatten (.record fields)
    rw [flatten_record] at flat ⊢
    rw [walk?, walk?, lastNamed?, ← find?_of_flat flat, find?_flattened]
    rfl
  | null | bool | number | text | list => rw [flatten]

/-- A look-up that finds the last field for its name agrees with the walk. -/
theorem follow?_eq_walk? {value : Value} {segment : Segment}
    (h : ∀ fields, value = .record fields →
      (fieldNamed? segment.name fields).map flatten =
        (lastNamed? segment.name fields).map flatten) :
    (value.follow? segment).map flatten = (value.walk? segment).map flatten := by
  cases value with
  | record fields =>
    rw [follow?_record, walk?]
    exact h fields rfl
  | list items => rw [follow?_list, walk?]
  | null | bool | number | text => cases segment <;> rfl

theorem followAll?_cons (value : Value) (segment : Segment) (segments : List Segment) :
    value.followAll? (segment :: segments) =
      (value.follow? segment).bind (·.followAll? segments) :=
  rfl

theorem walkAll?_cons (value : Value) (segment : Segment) (segments : List Segment) :
    value.walkAll? (segment :: segments) = (value.walk? segment).bind (·.walkAll? segments) :=
  rfl

/-- Wherever the steps lead through a record, the field that is found by its name has the value of
the last one whose name agrees. -/
def TakesLast (value : Value) (segments : List Segment) : Prop :=
  ∀ before segment after fields, segments = before ++ segment :: after →
    value.followAll? before = some (.record fields) →
      ∀ found last, IsFoundNamed segment.name found fields →
        IsLastLowered (lowerText segment.name) last fields → found.flatten = last.flatten

theorem takesLast_nil (value : Value) : value.TakesLast [] := by
  intro before segment after fields he
  cases before <;> cases he

theorem takesLast_cons {value : Value} {segment : Segment} {segments : List Segment} :
    value.TakesLast (segment :: segments) ↔
      (value.follow? segment).map flatten = (value.walk? segment).map flatten ∧
        ∀ inner, value.follow? segment = some inner → inner.TakesLast segments := by
  constructor
  · intro h
    refine ⟨follow?_eq_walk? fun fields hv => fieldNamed?_last_iff.mpr <|
      h [] segment segments fields rfl (by rw [hv]; rfl),
      fun inner hi before other after fields he hf => ?_⟩
    refine h (segment :: before) other after fields (by rw [he]; rfl) ?_
    rw [followAll?_cons, hi]
    exact hf
  · rintro ⟨first, rest⟩ before other after fields he hf
    cases before with
    | nil =>
      cases he
      cases Option.some.inj hf
      rw [follow?_record] at first
      exact fieldNamed?_last_iff.mp first
    | cons step before =>
      cases he
      rw [followAll?_cons] at hf
      obtain ⟨inner, hi, hf⟩ := Option.bind_eq_some_iff.mp hf
      exact rest inner hi before other after fields rfl hf

/-- From values that are alike when flattened, the look-ups agree with the walk at every step
exactly if they always find the last field. -/
theorem followAll?_agrees_iff {found given : Value} (same : found.flatten = given.flatten)
    (segments : List Segment) :
    (∀ start, start <+: segments →
      (found.followAll? start).map flatten = (given.walkAll? start).map flatten) ↔
        found.TakesLast segments := by
  induction segments generalizing found given with
  | nil =>
    refine iff_of_true (fun start hs => ?_) found.takesLast_nil
    rw [List.prefix_nil.mp hs]
    exact congrArg some same
  | cons segment segments ih =>
    have walks : (found.walk? segment).map flatten = (given.walk? segment).map flatten := by
      rw [← walk?_flatten, same, walk?_flatten]
    rw [takesLast_cons, walks]
    constructor
    · intro h
      have first : (found.follow? segment).map flatten = (given.walk? segment).map flatten := by
        simpa [followAll?, walkAll?] using h [segment] (by simp)
      refine ⟨first, fun inner hi => ?_⟩
      rw [hi] at first
      obtain ⟨other, ho, he⟩ := Option.map_eq_some_iff.mp first.symm
      refine (ih he.symm).mp fun start hs => ?_
      have := h (segment :: start) (by simpa using hs)
      rwa [followAll?_cons, walkAll?_cons, hi, ho] at this
    · rintro ⟨first, rest⟩ start hs
      cases start with
      | nil => exact congrArg some same
      | cons step start =>
        obtain ⟨rfl, hr⟩ := List.cons_prefix_cons.mp hs
        rw [followAll?_cons, walkAll?_cons]
        cases hf : found.follow? step with
        | none =>
          rw [hf] at first
          rw [Option.map_eq_none_iff.mp first.symm]
          rfl
        | some inner =>
          rw [hf] at first
          obtain ⟨other, ho, he⟩ := Option.map_eq_some_iff.mp first.symm
          rw [ho]
          exact (ih he.symm).mpr (rest inner hf) start hr

end Value

namespace Model

/-- Wherever the path leads through a record of the model, the field that is found by its name has
the value of the last one whose name agrees. -/
def TakesLast (model : Model) (path : Path) : Prop :=
  ∀ before segment after fields, path.segments = before ++ segment :: after →
    model.follow? ⟨path.head, before⟩ = some (.record fields) →
      ∀ found last, IsFoundNamed segment.name found fields →
        IsLastLowered (lowerText segment.name) last fields → found.flatten = last.flatten

theorem takesLast_iff {model : Model} {path : Path} :
    model.TakesLast path ↔
      ∀ value, fieldNamed? path.head model.fields = some value →
        value.TakesLast path.segments := by
  constructor
  · intro h value hv before segment after fields he hf
    refine h before segment after fields he ?_
    rw [follow?, hv]
    exact hf
  · intro h before segment after fields he hf
    obtain ⟨value, hv, hf⟩ := Option.bind_eq_some_iff.mp hf
    exact h value hv before segment after fields he hf

/-- The head of a path finds the last field of the data. -/
theorem fieldNamed?_ofValue (name : Text) (fields : List (Text × Value)) :
    fieldNamed? name (ofValue (.record fields)).fields =
      (lastNamed? name fields).map Value.flatten := by
  have flat := Value.flat_flatten (.record fields)
  rw [Value.flatten_record] at flat
  rw [ofValue, Value.flatten_record]
  dsimp only
  rw [Value.fieldNamed?_of_flat flat, lastNamed?, ← Value.find?_of_flat flat,
    Value.find?_flattened]
  rfl

/-- A path leads to the same in the model of the data and in a walk through the data, up to
flattening, and so does every part of it from its head on, exactly if in every record on the way the
field in lower case or, without one, the first field for the name has what the last one has. -/
theorem get?_reaches_iff (value : Value) {text : Text} {path : Path}
    (read : Path.read? text = some path) :
    (((ofValue value).get? text).map Value.flatten = (value.reach? path).map Value.flatten ∧
      ∀ start, start <+: path.segments →
        ((ofValue value).follow? ⟨path.head, start⟩).map Value.flatten =
          (value.reach? ⟨path.head, start⟩).map Value.flatten) ↔
      (ofValue value).TakesLast path := by
  have whole : (ofValue value).get? text = (ofValue value).follow? ⟨path.head, path.segments⟩ := by
    rw [get?, read]
    rfl
  rw [whole, and_iff_right_of_imp fun h => h path.segments (List.prefix_refl _), takesLast_iff]
  cases value with
  | record fields =>
    simp only [follow?, Value.reach?, fieldNamed?_ofValue]
    cases lastNamed? path.head fields with
    | none => exact iff_of_true (fun _ _ => rfl) (fun _ h => nomatch h)
    | some last =>
      simp only [Option.map_some, Option.bind_some, Option.some.injEq, forall_eq']
      exact Value.followAll?_agrees_iff last.flatten_flatten path.segments
  | null | bool | number | text | list =>
    refine iff_of_true (fun _ _ => ?_) (fun _ h => ?_)
    · simp only [ofValue, Value.flatten]
      rfl
    · simp only [ofValue, Value.flatten] at h
      cases h

/-- A list of one record with two fields. -/
def itemNamed (first last : String) : Value :=
  .record [("a".toList, .list [.record
    [(first.toList, .number (.integer 1)), (last.toList, .number (.integer 2))]])]

def itemPath : Path :=
  ⟨"a".toList, [.key "0".toList, .key "name".toList]⟩

/-- The name in lower case is found, and it is the last one here. -/
theorem get?_reaches_iff_lower :
    Path.read? "a.0.name".toList = some itemPath ∧
      (ofValue (itemNamed "NAME" "name")).TakesLast itemPath ∧
      ((ofValue (itemNamed "NAME" "name")).get? "a.0.name".toList).map Value.flatten =
        ((itemNamed "NAME" "name").reach? itemPath).map Value.flatten := by
  have read : Path.read? "a.0.name".toList = some itemPath := by decide +kernel
  have takes : (ofValue (itemNamed "NAME" "name")).TakesLast itemPath := by
    refine takesLast_iff.mpr fun value hv => ?_
    cases hv
    refine Value.takesLast_cons.mpr ⟨rfl, fun item hi => ?_⟩
    cases hi
    refine Value.takesLast_cons.mpr ⟨rfl, fun inner _ => inner.takesLast_nil⟩
  exact ⟨read, takes, ((get?_reaches_iff _ read).mpr takes).1⟩

/-- Of two names that differ in case the first is found inside a list, not the last. -/
theorem get?_misses_last :
    Path.read? "a.0.name".toList = some itemPath ∧
      ((ofValue (itemNamed "NAME" "Name")).get? "a.0.name".toList).map Value.flatten ≠
        ((itemNamed "NAME" "Name").reach? itemPath).map Value.flatten := by
  have read : Path.read? "a.0.name".toList = some itemPath := by decide +kernel
  refine ⟨read, ?_⟩
  have found : (ofValue (itemNamed "NAME" "Name")).get? "a.0.name".toList =
      some (.number (.integer 1)) := by
    rw [get?, read]
    rfl
  have last : (itemNamed "NAME" "Name").reach? itemPath = some (.number (.integer 2)) := rfl
  rw [found, last]
  simp [Value.flatten]

end Model

end MarkupTemplate
