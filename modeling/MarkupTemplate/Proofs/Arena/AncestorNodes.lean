import MarkupTemplate.Proofs.Arena.ReadingOrder
import MarkupTemplate.Proofs.Arena.TreeSearch
import Mathlib.Logic.Relation

namespace MarkupTemplate

namespace Arena

/-- The one node has the other one among its children. -/
def Names (tree : Arena) (parent id : Nat) : Prop :=
  ∃ owner, tree.node? parent = some owner ∧ id ∈ owner.children

/-- The one node is above the other one. -/
def Above (tree : Arena) : Nat → Nat → Prop :=
  Relation.TransGen tree.Names

/-- A node below the top that is to be kept, with none to be kept between them. -/
structure Outermost (tree : Arena) (keep : Nat → Bool) (top id : Nat) : Prop where
  above : tree.Above top id
  kept : keep id = true
  first {middle : Nat} : tree.Above top middle → tree.Above middle id → keep middle = false

variable {tree : Arena} {keep : Nat → Bool} {top parent other id middle depth : Nat}
  {ids all : List Nat} {node : ArenaNode} {forest : Forest}

namespace Linked

theorem names_lt (h : tree.Linked []) (hn : tree.Names parent id) : parent < id := by
  obtain ⟨owner, ho, hm⟩ := hn
  exact (h.child ho id hm).1

theorem names_unique (h : tree.Linked []) (hn : tree.Names parent id)
    (hn' : tree.Names other id) : other = parent := by
  obtain ⟨_, ho, hm⟩ := hn
  obtain ⟨_, ho', hm'⟩ := hn'
  exact h.owner_unique ho hm ho' hm'

theorem above_lt (h : tree.Linked []) (ha : tree.Above top id) : top < id := by
  induction ha with
  | single hn => exact h.names_lt hn
  | tail _ hn ih => exact Nat.lt_trans ih (h.names_lt hn)

/-- Nothing is between a node and its parent. -/
theorem not_above (h : tree.Linked []) (hn : tree.Names top id) (ha : tree.Above top middle) :
    ¬ tree.Above middle id := by
  intro hm
  obtain ⟨parent, hup, hp⟩ := Relation.TransGen.tail'_iff.mp hm
  cases h.names_unique hn hp
  exact Nat.lt_irrefl _ (h.above_lt (ha.trans_left hup))

/-- Of two nodes above a node one is above the other one. -/
theorem above_total (h : tree.Linked []) (ha : tree.Above top id) (hm : tree.Above middle id) :
    middle = top ∨ tree.Above top middle ∨ tree.Above middle top := by
  have unique : Relator.RightUnique (Function.swap tree.Names) :=
    fun _ _ _ hn hn' => h.names_unique hn' hn
  -- Upwards there is only one way, so the ways up from a node to both go together.
  have way := Relation.ReflTransGen.total_of_right_unique unique
    (Relation.reflTransGen_swap.mpr ha.to_reflTransGen)
    (Relation.reflTransGen_swap.mpr hm.to_reflTransGen)
  rcases way.imp Relation.reflTransGen_swap.mp Relation.reflTransGen_swap.mp with hup | hup
  · exact (Relation.reflTransGen_iff_eq_or_transGen.mp hup).imp Eq.symm .inr
  · exact (Relation.reflTransGen_iff_eq_or_transGen.mp hup).imp_right .inl

/-- What is outermost below a node is a child to be kept, or outermost below another child. -/
theorem outermost_iff (h : tree.Linked []) (hn : tree.node? top = some node) :
    tree.Outermost keep top id ↔ ∃ child ∈ node.children,
      keep child = true ∧ id = child ∨ keep child = false ∧ tree.Outermost keep child id := by
  constructor
  · intro ho
    obtain ⟨child, ⟨owner, hown, hm⟩, hup⟩ := Relation.TransGen.head'_iff.mp ho.above
    cases hn.symm.trans hown
    have named : tree.Names top child := ⟨node, hn, hm⟩
    refine ⟨child, hm, ?_⟩
    rcases Relation.reflTransGen_iff_eq_or_transGen.mp hup with rfl | hup
    · exact .inl ⟨ho.kept, rfl⟩
    · exact .inr ⟨ho.first (.single named) hup, hup, ho.kept,
        fun hbelow => ho.first (.head named hbelow)⟩
  · rintro ⟨child, hm, ⟨hk, rfl⟩ | ⟨hk, ho⟩⟩
    · have named : tree.Names top id := ⟨node, hn, hm⟩
      exact ⟨.single named, hk, fun hbelow hup => absurd hup (h.not_above named hbelow)⟩
    · have named : tree.Names top child := ⟨node, hn, hm⟩
      refine ⟨.head named ho.above, ho.kept, fun {middle} hbelow hup => ?_⟩
      -- the child and the middle one are both above `id`, so one is above the other
      rcases h.above_total ho.above hup with rfl | hm | hm
      · exact hk
      · exact ho.first hm hup
      · exact absurd hm (h.not_above named hbelow)

end Linked

/-- The nodes that hold a forest with all below them are found in the order of the text. -/
theorem Linked.mapM_nodesBelow? (h : tree.Linked []) (hl : tree.Lists parent ids forest all)
    (hdepth : ∀ id ∈ all, tree.size ≤ id + depth) :
    ∃ found, ids.mapM (tree.nodesBelow? depth) = some found ∧ found.flatten = all := by
  induction hl generalizing depth with
  | nil => exact ⟨[], rfl, rfl⟩
  | @cons parent id node content rest inner others children next hn _ _ hchildren _ ihc ihn =>
    obtain ⟨hd, hdepth⟩ := List.forall_mem_cons.mp hdepth
    obtain ⟨depth, rfl, deeper⟩ := exists_deeper hn hd
    have inside : ∀ k ∈ inner, tree.size ≤ k + depth := fun k hk =>
      deeper k (h.lt_of_lists hchildren k hk)
    obtain ⟨found, hf, hflat⟩ := ihc inside
    obtain ⟨later, hlater, hrest⟩ := ihn fun k hk => hdepth k (List.mem_append_right _ hk)
    rw [List.mapM_cons, nodesBelow?, hlater]
    simp only [Option.bind_eq_bind, Option.bind_some, hn, hf]
    exact ⟨_, rfl, by simp [hflat, hrest]⟩

/-- What is below a node is found in the order of the text. -/
theorem Linked.nodesBelow?_eq (h : tree.Linked []) (hn : tree.node? id = some node)
    (hl : tree.Lists id node.children forest all) :
    tree.nodesBelow? tree.size id = some (id :: all) := by
  obtain ⟨depth, hsize, deeper⟩ := exists_deeper hn (Nat.le_add_left tree.size id)
  have enough : ∀ k ∈ all, tree.size ≤ k + depth := fun k hk =>
    deeper k (h.lt_of_lists hl k hk)
  obtain ⟨found, hf, hflat⟩ := h.mapM_nodesBelow? hl enough
  rw [hsize, nodesBelow?, hn]
  simp only [Option.bind_eq_bind, Option.bind_some, hf, hflat]
  rfl

end Arena

end MarkupTemplate
