import MarkupTemplate.Render.InPlace

namespace MarkupTemplate

namespace Arena

variable {context : Context} {turns more : Nat} {run : Run} {tree : Arena}

/-- What comes after the same first step. -/
theorem bind_of_bind {α β : Type} {first : Option α} {next other : α → Option β} {found : β}
    (h : first.bind next = some found)
    (later : ∀ a, next a = some found → other a = some found) : first.bind other = some found := by
  obtain ⟨a, ha, h⟩ := Option.bind_eq_some_iff.mp h
  rw [ha]
  exact later a h

theorem expandIncludes?_mono (le : turns ≤ more) {progressed : Bool} {found : Bool × Run × Arena}
    (h : expandIncludes? context turns progressed run tree = some found) :
    expandIncludes? context more progressed run tree = some found := by
  induction turns generalizing more progressed run tree with
  | zero => cases h
  | succ turns ih =>
    obtain ⟨more, rfl⟩ := Nat.exists_eq_add_of_le' (Nat.le_of_add_left_le le)
    rw [expandIncludes?] at h ⊢
    cases hb : run.budget with
    | spent => rwa [hb] at h
    | remaining steps =>
      rw [hb] at h
      refine bind_of_bind h fun first h => ?_
      cases first with
      | none => exact h
      | some id =>
        cases steps with
        | zero => exact h
        | succ steps => exact bind_of_bind h fun _ => ih (Nat.le_of_succ_le_succ le)

theorem resolveChains?_mono (le : turns ≤ more) {progressed : Bool} {found : Bool × Run × Arena}
    (h : resolveChains? turns progressed run tree = some found) :
    resolveChains? more progressed run tree = some found := by
  induction turns generalizing more progressed run tree with
  | zero => cases h
  | succ turns ih =>
    obtain ⟨more, rfl⟩ := Nat.exists_eq_add_of_le' (Nat.le_of_add_left_le le)
    rw [resolveChains?] at h ⊢
    refine bind_of_bind h fun first h => ?_
    cases first with
    | none => exact h
    | some head => exact bind_of_bind h fun _ => ih (Nat.le_of_succ_le_succ le)

theorem resolveTags?_mono (le : turns ≤ more) {found : Run × Arena}
    (h : resolveTags? context turns run tree = some found) :
    resolveTags? context more run tree = some found := by
  induction turns generalizing more run tree with
  | zero => cases h
  | succ turns ih =>
    obtain ⟨more, rfl⟩ := Nat.exists_eq_add_of_le' (Nat.le_of_add_left_le le)
    have le := Nat.le_of_succ_le_succ le
    rw [resolveTags?] at h ⊢
    obtain ⟨first, hf, h⟩ := Option.bind_eq_some_iff.mp h
    obtain ⟨second, hs, h⟩ := Option.bind_eq_some_iff.mp h
    rw [expandIncludes?_mono le hf, Option.bind_eq_bind, Option.bind_some]
    dsimp only
    rw [resolveChains?_mono le hs, Option.bind_some]
    dsimp only at h
    split at h
    next hp =>
      rw [if_pos hp]
      exact ih le h
    next hp =>
      rw [if_neg hp]
      exact h

section Loops

variable {inner wider : Run → Arena → Option (Run × Arena)}
  (wide : ∀ {run : Run} {tree : Arena} {found : Run × Arena},
    inner run tree = some found → wider run tree = some found)

include wide

theorem iterate?_mono (le : turns ≤ more) {loop : Loop} {body : List Piece}
    {entries : List (Value × Value)} {output : Arena} {found : Run × Arena}
    (h : iterate? context turns inner loop body entries run output = some found) :
    iterate? context more wider loop body entries run output = some found := by
  induction entries generalizing run output with
  | nil => exact h
  | cons entry entries ih =>
    refine bind_of_bind h ?_
    rintro ⟨read, tree⟩ h
    obtain ⟨⟨tagged, resolved⟩, ht, h⟩ := Option.bind_eq_some_iff.mp h
    obtain ⟨⟨left, last⟩, hl, h⟩ := Option.bind_eq_some_iff.mp h
    dsimp only
    rw [resolveTags?_mono le ht, Option.bind_eq_bind, Option.bind_some]
    dsimp only
    rw [wide hl, Option.bind_some]
    exact bind_of_bind h fun _ => ih

theorem resolveLoop?_mono (le : turns ≤ more) {id : Nat} {found : Run × Arena}
    (h : resolveLoop? context turns inner run tree id = some found) :
    resolveLoop? context more wider run tree id = some found := by
  refine bind_of_bind h fun node h => ?_
  split at h
  next => exact h
  next => exact h
  next loop _ =>
    refine bind_of_bind h fun marked h => bind_of_bind h fun body h => ?_
    obtain ⟨last, hl, h⟩ := Option.bind_eq_some_iff.mp h
    rw [iterate?_mono wide le hl]
    exact h

end Loops

theorem resolveLoops?_mono (le : turns ≤ more) {found : Run × Arena}
    (h : resolveLoops? context turns run tree = some found) :
    resolveLoops? context more run tree = some found := by
  induction turns generalizing more run tree found with
  | zero => cases h
  | succ turns ih =>
    obtain ⟨more, rfl⟩ := Nat.exists_eq_add_of_le' (Nat.le_of_add_left_le le)
    have le := Nat.le_of_succ_le_succ le
    rw [resolveLoops?] at h ⊢
    refine bind_of_bind h fun first h => ?_
    cases first with
    | none => exact h
    | some id =>
      obtain ⟨next, hn, h⟩ := Option.bind_eq_some_iff.mp h
      dsimp only
      rw [resolveLoop?_mono (ih le) le hn]
      exact ih le h

theorem removeLinks?_mono (le : turns ≤ more) {found : Arena}
    (h : removeLinks? turns tree = some found) : removeLinks? more tree = some found := by
  induction turns generalizing more tree with
  | zero => cases h
  | succ turns ih =>
    obtain ⟨more, rfl⟩ := Nat.exists_eq_add_of_le' (Nat.le_of_add_left_le le)
    rw [removeLinks?] at h ⊢
    refine bind_of_bind h fun first h => ?_
    cases first with
    | none => exact h
    | some id => exact bind_of_bind h fun _ => ih (Nat.le_of_succ_le_succ le)

end Arena

end MarkupTemplate
