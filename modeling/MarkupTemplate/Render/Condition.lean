import MarkupTemplate.Data.Model
import MarkupTemplate.Render.Notice

namespace MarkupTemplate

/-- Whether a conditional element holds, and what there is to tell about it. Its first attribute
names a value that must count as true or, if another text is given, have this text. -/
def Element.verdict (model : Model) (element : Element) : Bool × List Notice :=
  let opposite := element.role = .head true ∨ element.role = .link true
  if element.role = .otherwise then (true, [])
  else match element.attributes with
    | [] => (false, [.noCondition])
    | attr :: _ =>
      let name := lowerText attr.name
      match model.get? name with
      | none => (opposite, [.unknownCondition name])
      | some value =>
        let holds :=
          if attr.text = [] ∨ lowerText attr.text = name then !value.isFalsy
          else value.display == attr.text
        (holds != opposite, [])

theorem Element.verdict_otherwise {element : Element} (h : element.role = .otherwise)
    (model : Model) : element.verdict model = (true, []) := by
  rw [verdict, if_pos h]

theorem Element.verdict_of_no_attributes {element : Element} (hr : element.role ≠ .otherwise)
    (ha : element.attributes = []) (model : Model) :
    element.verdict model = (false, [.noCondition]) := by
  rw [verdict, if_neg hr, ha]

/-- An `if` or `elseif` holds for a value that counts as true or has the text that is given. -/
theorem Element.verdict_holds_iff {element : Element}
    (h : element.role = .head false ∨ element.role = .link false) (model : Model) :
    (element.verdict model).1 = true ↔
      ∃ attr rest value, element.attributes = attr :: rest ∧
        model.get? (lowerText attr.name) = some value ∧
        if attr.text = [] ∨ lowerText attr.text = lowerText attr.name then value.isFalsy = false
        else value.display = attr.text := by
  have hr : element.role ≠ .otherwise := by rcases h with h | h <;> simp [h]
  have ho : ¬ (element.role = .head true ∨ element.role = .link true) := by
    rcases h with h | h <;> simp [h]
  rw [verdict, if_neg hr]
  cases element.attributes with
  | nil => simp
  | cons attr rest =>
    cases hg : model.get? (lowerText attr.name) with
    | none => simp [ho, hg]
    | some value =>
      by_cases hn : attr.text = [] ∨ lowerText attr.text = lowerText attr.name
      · simp [ho, hg, hn]
      · simp [ho, hg, hn]

/-- An `unless` or `elseunless` holds where an `if` or `elseif` with its attributes does not. -/
theorem Element.verdict_opposite {element other : Element}
    (h : element.role = .head false ∨ element.role = .link false)
    (ho : other.role = .head true ∨ other.role = .link true)
    (same : other.attributes = element.attributes) (given : element.attributes ≠ [])
    (model : Model) : (other.verdict model).1 = !(element.verdict model).1 := by
  have hr : element.role ≠ .otherwise := by rcases h with h | h <;> simp [h]
  have hr' : other.role ≠ .otherwise := by rcases ho with ho | ho <;> simp [ho]
  have hn : ¬ (element.role = .head true ∨ element.role = .link true) := by
    rcases h with h | h <;> simp [h]
  rw [verdict, verdict, if_neg hr, if_neg hr', same]
  cases ha : element.attributes with
  | nil => exact absurd ha given
  | cons attr rest =>
    cases hg : model.get? (lowerText attr.name) <;> simp [hg, ho, hn]

/-- A branch of a chain. -/
structure Branch where
  element : Element
  children : Forest

/-- The branches that continue a chain, and the nodes after the chain. Blank text may stand between
the branches; an `else` is the last one. Of the nodes after the chain `rest` begins with those
that have been passed as blank since the last branch. -/
def links (rest : Forest) : Forest → List Branch × Forest
  | .node (.text text) _ next => if isBlankText text then links rest next else ([], rest)
  | .node (.element element) children next =>
    if element.isLink then
      if element.role = .otherwise then ([⟨element, children⟩], next)
      else
        let following := links next next
        (⟨element, children⟩ :: following.1, following.2)
    else ([], rest)
  | _ => ([], rest)

/-- The children of the first branch that holds, and the notices of the branches up to it. -/
def choose (model : Model) : List Branch → Forest × List Notice
  | [] => (.nil, [])
  | branch :: branches =>
    match branch.element.verdict model with
    | (true, notices) => (branch.children, notices)
    | (false, notices) =>
      let chosen := choose model branches
      (chosen.1, notices ++ chosen.2)

/-- The number of nodes in all branches. -/
def branchesSize : List Branch → Nat
  | [] => 0
  | branch :: branches => branch.children.size + branchesSize branches

theorem size_choose_le (model : Model) (branches : List Branch) :
    (choose model branches).1.size ≤ branchesSize branches := by
  induction branches with
  | nil => simp [choose, Forest.size]
  | cons branch branches ih =>
    simp only [branchesSize]
    rw [choose]
    split
    · simp only
      omega
    · simp only
      omega

theorem size_links_le {rest forest : Forest} (h : forest.size ≤ rest.size) :
    branchesSize (links rest forest).1 + (links rest forest).2.size ≤ rest.size := by
  fun_induction links rest forest with
  | case1 rest text _ next _ ih =>
    exact ih (by simp only [Forest.size] at h; omega)
  | case2 => simp [branchesSize]
  | case3 rest element children next _ _ =>
    simp only [branchesSize, Forest.size] at h ⊢
    omega
  | case4 rest element children next _ _ _ ih =>
    have := ih (Nat.le_refl _)
    change branchesSize (⟨element, children⟩ :: (links next next).1) + (links next next).2.size ≤ _
    simp only [branchesSize, Forest.size] at h this ⊢
    omega
  | case5 => simp [branchesSize]
  | case6 => simp [branchesSize]

/-- The head of a chain that a node is. -/
def Content.head? (content : Content) : Option Element :=
  content.element?.filter (·.isHead)

/-- Replaces every chain outside of loops by the children of its chosen branch, in which chains are
replaced in turn together with what follows. -/
def resolveChains (model : Model) : Forest → Forest × List Notice
  | .nil => (.nil, [])
  | .node content children next =>
    match content.head? with
    | some element =>
      let chain := links next next
      let chosen := choose model (⟨element, children⟩ :: chain.1)
      let rest := resolveChains model (chosen.1 ++ chain.2)
      (rest.1, chosen.2 ++ rest.2)
    | none =>
      if content.isElement (·.isLoop) then
        let rest := resolveChains model next
        (.node content children rest.1, rest.2)
      else
        let inside := resolveChains model children
        let rest := resolveChains model next
        (.node content inside.1 rest.1, inside.2 ++ rest.2)
termination_by forest => forest.size
decreasing_by
  · have h1 := size_choose_le model (⟨element, children⟩ :: (links next next).1)
    have h2 := size_links_le (Nat.le_refl next.size)
    simp only [branchesSize] at h1 h2
    simp only [Forest.size_append, Forest.size]
    omega
  all_goals
    simp only [Forest.size]
    omega

/-- The forest without the links that no chain has taken. -/
def removeLinks : Forest → Forest
  | .nil => .nil
  | .node content children next =>
    if content.isElement (·.isLink) then removeLinks next
    else .node content (removeLinks children) (removeLinks next)

end MarkupTemplate
