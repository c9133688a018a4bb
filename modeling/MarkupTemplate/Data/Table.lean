import MarkupTemplate.Text.Basic

namespace MarkupTemplate

/-- Entries by name, in order. -/
abbrev Table (α : Type) := List (Text × α)

namespace Table

variable {α : Type}

/-- The first entry of a name. -/
def find? (name : Text) : Table α → Option α
  | [] => none
  | (key, value) :: rest => if key = name then some value else find? name rest

/-- Replaces the entry of a name where it stands, or puts a new one at the end. -/
def insert (name : Text) (value : α) : Table α → Table α
  | [] => [(name, value)]
  | (key, old) :: rest =>
    if key = name then (key, value) :: rest else (key, old) :: insert name value rest

/-- The table of named values given one after the other. -/
def ofPairs (pairs : List (Text × α)) : Table α :=
  pairs.foldl (fun table pair => table.insert pair.1 pair.2) []

/-- The names of a table. -/
def names (table : Table α) : List Text :=
  table.map Prod.fst

theorem find?_insert_self (name : Text) (value : α) (table : Table α) :
    (table.insert name value).find? name = some value := by
  induction table with
  | nil => simp [insert, find?]
  | cons entry rest ih =>
    by_cases h : entry.1 = name <;> simp [insert, find?, h, ih]

theorem find?_insert_ne {name other : Text} (h : other ≠ name) (value : α) (table : Table α) :
    (table.insert name value).find? other = table.find? other := by
  induction table with
  | nil => simp [insert, find?, h.symm]
  | cons entry rest ih =>
    by_cases hn : entry.1 = name
    · simp [insert, find?, hn, h.symm]
    · simp only [insert, hn, if_false, find?, ih]

theorem mem_of_find? {name : Text} {value : α} {table : Table α}
    (h : table.find? name = some value) :
    (name, value) ∈ table := by
  induction table with
  | nil => cases h
  | cons entry rest ih =>
    by_cases hn : entry.1 = name
    · have hv : entry.2 = value := by simpa [find?, hn] using h
      rw [← hn, ← hv]
      exact List.mem_cons_self
    · have hr : find? name rest = some value := by simpa only [find?, hn, if_false] using h
      exact List.mem_cons_of_mem _ (ih hr)

theorem mem_insert {name : Text} {value : α} {table : Table α} {entry : Text × α}
    (h : entry ∈ table.insert name value) : entry = (name, value) ∨ entry ∈ table := by
  induction table with
  | nil => exact .inl (List.mem_singleton.mp h)
  | cons first rest ih =>
    by_cases hn : first.1 = name
    · simp only [insert, hn, if_true] at h
      exact (List.mem_cons.mp h).imp_right (List.mem_cons_of_mem _)
    · simp only [insert, hn, if_false] at h
      rcases List.mem_cons.mp h with rfl | hr
      · exact .inr List.mem_cons_self
      · exact (ih hr).imp_right (List.mem_cons_of_mem _)

/-- Inserting keeps the names in place and adds at most the new one. -/
theorem names_insert (name : Text) (value : α) (table : Table α) :
    (table.insert name value).names =
      if name ∈ table.names then table.names else table.names ++ [name] := by
  induction table with
  | nil => simp [insert, names]
  | cons entry rest ih =>
    by_cases hn : entry.1 = name
    · simp [insert, names, hn]
    · have hn' : ¬ name = entry.1 := fun h => hn h.symm
      simp only [insert, names, hn, if_false, List.map_cons, List.mem_cons, hn', false_or] at ih ⊢
      rw [ih]
      by_cases hr : name ∈ List.map Prod.fst rest <;> simp [hr]

/-- Only the last value of a name stays. -/
theorem insert_insert (name : Text) (first last : α) (table : Table α) :
    (table.insert name first).insert name last = table.insert name last := by
  induction table with
  | nil => simp [insert]
  | cons entry rest ih =>
    by_cases hn : entry.1 = name
    · simp [insert, hn]
    · simp only [insert, hn, if_false, ih]

/-- A name that is there is replaced in its place, before or after another one is inserted. -/
theorem insert_comm {name other : Text} (h : name ≠ other) (value item : α) {table : Table α}
    (hm : name ∈ table.names) :
    (table.insert other item).insert name value = (table.insert name value).insert other item := by
  induction table with
  | nil => cases hm
  | cons entry rest ih =>
    by_cases hn : entry.1 = name
    · simp [insert, hn, h]
    · have later : name ∈ names rest := (List.mem_cons.mp hm).resolve_left fun he => hn he.symm
      by_cases ho : entry.1 = other
      · simp [insert, ho, h.symm]
      · simp only [insert, hn, ho, if_false, ih later]

end Table

end MarkupTemplate
