import MarkupTemplate.Data.Path
import MarkupTemplate.Text.Byte

namespace MarkupTemplate

/-- The step that the text between two brackets writes. -/
def scanBracket? (inner : Text) : Option (Option Segment) :=
  let isIn (quote : Char) : Bool := inner.head? == some quote && inner.getLast? == some quote
  if 2 ≤ encodedSize inner && (isIn '"' || isIn '\'') then
    (slice? 1 (encodedSize inner - 1) inner).map fun name => some (.key name)
  else some ((index? inner).map .index)

/-- The name at the start of a text, which may be missing, and what follows it. -/
def scanName? (text : Text) : Option (Option (Text × Text)) :=
  let length := (position? isPathDelimiter text).getD (encodedSize text)
  if length = 0 then some none
  else do
    let name ← sliceTo? length text
    let rest ← sliceFrom? length text
    some (some (name, rest))

/-- The step in brackets at the start of a text, the first bracket apart, and what follows it. -/
def scanBracketed? (text : Text) : Option (Option (Segment × Text)) :=
  match position? (· == ']') text with
  | none => some none
  | some close => do
    let inner ← sliceTo? close text
    match ← scanBracket? inner with
    | none => some none
    | some segment => do
      let rest ← sliceFrom? (close + 1) text
      some (some (segment, rest))

theorem length_lt_of_sliceFrom? {position : Nat} {text rest : Text} (hp : position ≠ 0)
    (h : sliceFrom? position text = some rest) : rest.length < text.length := by
  obtain ⟨before, rfl, rfl⟩ := append_of_sliceFrom? h
  have hb : before ≠ [] := by
    rintro rfl
    exact hp rfl
  have := List.length_pos_iff.mpr hb
  rw [List.length_append]
  omega

theorem length_lt_of_scanName? {text name rest : Text}
    (h : scanName? text = some (some (name, rest))) : rest.length < text.length := by
  unfold scanName? at h
  dsimp only at h
  split at h
  next => cases h
  next hl =>
    obtain ⟨_, _, h⟩ := Option.bind_eq_some_iff.mp h
    obtain ⟨_, hr, h⟩ := Option.bind_eq_some_iff.mp h
    obtain ⟨_, rfl⟩ := Prod.mk.inj (Option.some.inj (Option.some.inj h))
    exact length_lt_of_sliceFrom? hl hr

theorem length_lt_of_scanBracketed? {text rest : Text} {segment : Segment}
    (h : scanBracketed? text = some (some (segment, rest))) : rest.length < text.length := by
  unfold scanBracketed? at h
  split at h
  next => cases h
  next close _ =>
    obtain ⟨_, _, h⟩ := Option.bind_eq_some_iff.mp h
    obtain ⟨found, _, h⟩ := Option.bind_eq_some_iff.mp h
    cases found with
    | none => cases h
    | some =>
      obtain ⟨_, hr, h⟩ := Option.bind_eq_some_iff.mp h
      obtain ⟨_, rfl⟩ := Prod.mk.inj (Option.some.inj (Option.some.inj h))
      exact length_lt_of_sliceFrom? (Nat.succ_ne_zero close) hr

/-- The steps that the rest of a text writes. A name comes first where one is expected, and
otherwise a dot or a bracket, if there is more to come at all. -/
def scanSteps? (expectsName : Bool) (rest : Text) : Option (Option (List Segment)) :=
  match expectsName, rest with
  | true, rest =>
    match h : scanName? rest with
    | none => none
    | some none => some none
    | some (some (name, tail)) =>
      have := length_lt_of_scanName? h
      (scanSteps? false tail).map fun found => found.map (.key name :: ·)
  | false, [] => some (some [])
  | false, '.' :: tail => scanSteps? true tail
  | false, '[' :: tail =>
    match h : scanBracketed? tail with
    | none => none
    | some none => some none
    | some (some (segment, after)) =>
      have := length_lt_of_scanBracketed? h
      (scanSteps? false after).map fun found => found.map (segment :: ·)
  | false, _ => some none
termination_by rest.length
decreasing_by
  · exact this
  · exact Nat.lt_succ_self _
  · exact Nat.lt_succ_of_lt this

/-- The steps of a path. The first one is a name. -/
def Path.steps (path : Path) : List Segment :=
  .key path.head :: path.segments

/-- The steps of the path that a text writes. -/
def Path.scan? (text : Text) : Option (Option (List Segment)) :=
  scanSteps? true text

end MarkupTemplate
