import MarkupTemplate.Proofs.Arena.NodePlaces
import MarkupTemplate.Proofs.Arena.Soundness
import MarkupTemplate.Render.InPlace
import Mathlib.Data.List.Perm.Subperm

namespace MarkupTemplate

namespace Arena

/-- The node is blank text. -/
def isBlank (tree : Arena) (id : Nat) : Bool :=
  (tree.node? id).any ArenaNode.isBlank

/-- The node is an element with the property. -/
def isElement (tree : Arena) (property : Element → Bool) (id : Nat) : Bool :=
  (tree.node? id).any (·.isElement property)

/-- Siblings continue a chain: they are links, each with blank texts before it, and an `else` is the
last one. -/
inductive Continues (tree : Arena) : List Nat → Prop
  | nil : Continues tree []
  | link {blanks rest : List Nat} {id : Nat} : (∀ k ∈ blanks, tree.isBlank k = true) →
      tree.isElement (·.isLink) id = true → tree.isElement (·.role == .otherwise) id = false →
      Continues tree rest → Continues tree (blanks ++ id :: rest)
  | otherwise {blanks : List Nat} {id : Nat} : (∀ k ∈ blanks, tree.isBlank k = true) →
      tree.isElement (·.isLink) id = true → tree.isElement (·.role == .otherwise) id = true →
      Continues tree (blanks ++ [id])

/-- Of the siblings from one on those that continue a chain, where `blanks` are the blank texts before
them. -/
def following (tree : Arena) : List Nat → List Nat → List Nat
  | _, [] => []
  | blanks, id :: rest =>
    if tree.isBlank id then following tree (blanks ++ [id]) rest
    else if tree.isElement (·.isLink) id then
      blanks ++ id ::
        if tree.isElement (·.role == .otherwise) id then [] else following tree [] rest
    else []

variable {tree : Arena} {parent id head : Nat} {ids blanks before all : List Nat}
  {node owner : ArenaNode} {forest : Forest}

section Following

theorem isBlank_of_isLink (h : tree.isElement (·.isLink) id = true) : tree.isBlank id = false := by
  obtain ⟨node, hn, he⟩ := (Option.any_eq_true ..).mp h
  obtain ⟨e, hc, _⟩ := ArenaNode.exists_of_isElement he
  simp [isBlank, hn, ArenaNode.isBlank, hc]

theorem continues_following (hb : ∀ k ∈ blanks, tree.isBlank k = true) (ids : List Nat) :
    tree.Continues (tree.following blanks ids) := by
  induction ids generalizing blanks with
  | nil => exact .nil
  | cons id rest ih =>
    rw [following]
    split
    next hid =>
      refine ih fun k hk => ?_
      rcases List.mem_append.mp hk with hk | hk
      · exact hb k hk
      · rwa [List.mem_singleton.mp hk]
    next =>
      split
      next hl =>
        split
        next ho => exact .otherwise hb hl ho
        next ho => exact .link hb hl (Bool.eq_false_iff.mpr ho) (ih (by simp))
      next => exact .nil

/-- Where two lists agree, the first of their nodes that is not blank is the same. -/
theorem first_not_blank {blanks' rest rest' : List Nat} {id' : Nat}
    (hb : ∀ k ∈ blanks, tree.isBlank k = true) (hid : tree.isBlank id = false)
    (hb' : ∀ k ∈ blanks', tree.isBlank k = true) (hid' : tree.isBlank id' = false)
    (h : blanks ++ id :: rest = blanks' ++ id' :: rest') :
    blanks = blanks' ∧ id = id' ∧ rest = rest' := by
  induction blanks generalizing blanks' with
  | nil =>
    cases blanks' with
    | nil => exact ⟨rfl, List.cons.inj h⟩
    | cons k blanks' =>
      obtain ⟨rfl, _⟩ := List.cons.inj h
      rw [hb' _ List.mem_cons_self] at hid
      cases hid
  | cons k blanks ih =>
    obtain ⟨hk, hb⟩ := List.forall_mem_cons.mp hb
    cases blanks' with
    | nil =>
      obtain ⟨rfl, _⟩ := List.cons.inj h
      rw [hk] at hid'
      cases hid'
    | cons k' blanks' =>
      obtain ⟨rfl, htail⟩ := List.cons.inj h
      obtain ⟨rfl, hrest⟩ := ih hb (List.forall_mem_cons.mp hb').2 htail
      exact ⟨rfl, hrest⟩

/-- Siblings that continue a chain are none, or have a first link with blank texts before it. -/
theorem Continues.first (h : tree.Continues ids) :
    ids = [] ∨ ∃ blanks id rest, ids = blanks ++ id :: rest ∧
      (∀ k ∈ blanks, tree.isBlank k = true) ∧ tree.isElement (·.isLink) id = true ∧
      (tree.isElement (·.role == .otherwise) id = true → rest = []) ∧ tree.Continues rest := by
  cases h with
  | nil => exact .inl rfl
  | link hb hl ho hrest => exact .inr ⟨_, _, _, rfl, hb, hl, by simp [ho], hrest⟩
  | otherwise hb hl _ => exact .inr ⟨_, _, _, rfl, hb, hl, fun _ => rfl, .nil⟩

/-- Nothing longer continues the chain. -/
theorem Continues.prefix_following {others : List Nat} (h : tree.Continues others)
    (hb : ∀ k ∈ blanks, tree.isBlank k = true) (hp : others <+: blanks ++ ids) :
    others <+: tree.following blanks ids := by
  induction ids generalizing blanks others with
  | nil =>
    rcases h.first with rfl | ⟨_, id, _, rfl, _, hl, _⟩
    · exact List.nil_prefix
    · have hblank := hb id (by simpa using hp.subset (by simp))
      rw [isBlank_of_isLink hl] at hblank
      cases hblank
  | cons id rest ih =>
    rcases h.first with rfl | ⟨blanks', id', rest', rfl, hb', hl, hlast, hrest⟩
    · exact List.nil_prefix
    · have hid' := isBlank_of_isLink hl
      cases hid : tree.isBlank id with
      | true =>
        rw [following, if_pos hid]
        refine ih h (fun k hk => ?_) (by rwa [List.append_cons blanks] at hp)
        rcases List.mem_append.mp hk with hk | hk
        · exact hb k hk
        · rwa [List.mem_singleton.mp hk]
      | false =>
        obtain ⟨later, hlater⟩ := hp
        rw [List.append_assoc, List.cons_append] at hlater
        obtain ⟨rfl, rfl, rfl⟩ := first_not_blank hb' hid' hb hid hlater
        rw [following, if_neg (by simp [hid]), if_pos hl, List.prefix_append_right_inj,
          List.cons_prefix_cons]
        refine ⟨rfl, ?_⟩
        split
        next ho => simp [hlast ho]
        next => exact ih hrest (by simp) ⟨later, rfl⟩

end Following

section Chain

variable {later : List Nat}

theorem Linked.nextSibling? (h : tree.Linked []) (ho : tree.node? parent = some owner)
    (hs : owner.children = before ++ id :: later) : tree.nextSibling? id = some later.head? := by
  obtain ⟨_, node, hn, hp⟩ := h.child ho id (by simp [hs])
  have hbefore : id ∉ before := fun hm => by
    have hnodup := h.nodup ho
    rw [hs] at hnodup
    exact (List.nodup_append.mp hnodup).2.2 id hm id List.mem_cons_self rfl
  simp only [Arena.nextSibling?, indexInParent?_child hn hp ho, hs, idxOf?_append_cons hbefore,
    Option.map_some, Option.bind_eq_bind, Option.bind_some, ho]
  rw [List.getElem?_append_right (Nat.le_succ _), List.head?_eq_getElem?]
  simp

/-- Walking along the siblings collects those that continue the chain. -/
theorem Linked.chainFrom?_eq {turns : Nat} (h : tree.Linked [])
    (ho : tree.node? parent = some owner) (hs : owner.children = before ++ ids)
    (hturns : ids.length ≤ turns) (chain blanks : List Nat) :
    tree.chainFrom? turns chain blanks ids.head? = some (chain ++ tree.following blanks ids) := by
  induction ids generalizing before turns chain blanks with
  | nil => cases turns <;> simp [chainFrom?, following]
  | cons id rest ih =>
    obtain ⟨turns, rfl⟩ : ∃ t, turns = t + 1 := Nat.exists_eq_succ_of_ne_zero (by
      rintro rfl
      exact Nat.not_succ_le_zero _ hturns)
    obtain ⟨_, node, hn, _⟩ := h.child ho id (by simp [hs])
    have hs' : owner.children = (before ++ [id]) ++ rest := by rw [hs, List.append_cons]
    have ih := fun chain blanks => ih hs' (Nat.le_of_succ_le_succ hturns) chain blanks
    rw [List.head?_cons, chainFrom?, following]
    simp only [Option.bind_eq_bind, Option.bind_some, hn, h.nextSibling? ho hs, isBlank, isElement,
      Option.any_some, ih]
    split
    next => rfl
    next =>
      split
      next =>
        split
        next => simp
        next => simp
      next => simp

theorem Linked.length_children_le (h : tree.Linked []) (ho : tree.node? parent = some owner) :
    owner.children.length ≤ tree.size := by
  have hsub : owner.children ⊆ List.range tree.size := fun id hid => by
    obtain ⟨_, node, hn, _⟩ := h.child ho id hid
    exact List.mem_range.mpr (lt_of_node? hn)
  simpa using ((h.nodup ho).subperm hsub).length_le

/-- The chain of a head has those of the following siblings that continue it. -/
theorem Linked.chain?_eq (h : tree.Linked []) (ho : tree.node? parent = some owner)
    (hs : owner.children = before ++ head :: later) :
    tree.chain? head = some (head :: tree.following [] later) := by
  have hs' : owner.children = (before ++ [head]) ++ later := by rw [hs, List.append_cons]
  have hlength : later.length ≤ tree.size := by
    refine Nat.le_trans ?_ (h.length_children_le ho)
    rw [hs']
    simp only [List.length_append, Nat.le_add_left]
  rw [chain?, h.nextSibling? ho hs]
  exact h.chainFrom?_eq ho hs' hlength [head] []

end Chain

end Arena

end MarkupTemplate
