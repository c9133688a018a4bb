import MarkupTemplate.Proofs.Arena.ArenaLinks

namespace MarkupTemplate

namespace Arena

/-- A node of an arena that can be copied without going down further than a depth. -/
structure Graftable (source : Arena) (depth origin : Nat) : Prop where
  content : ∃ node, source.node? origin = some node ∧ node.content ≠ none
  depth : source.size ≤ origin + depth

/-- The second arena has a copy under a parent that the first one does not have. -/
structure Grafted (tree after : Arena) (loose : List Nat) (parent : Nat) : Prop where
  linked : after.Linked (tree.size :: loose)
  size : tree.size < after.size
  old {k : Nat} : k < tree.size → after.node? k = tree.node? k
  top : ∃ node, after.node? tree.size = some node ∧ node.parent = some parent

/-- The second arena has more children for a node than the first one. -/
structure Adopted (tree after : Arena) (loose : List Nat) (parent : Nat) : Prop where
  linked : after.Linked loose
  size : tree.size ≤ after.size
  old {k : Nat} : k < tree.size → parent ≠ k → after.node? k = tree.node? k
  parent {node : ArenaNode} : tree.node? parent = some node →
    ∃ same, after.node? parent = some same ∧ same.content = node.content ∧
      same.parent = node.parent

/-- Copying down to a depth succeeds, wherever the copy goes. -/
def Grafts (source : Arena) (depth : Nat) : Prop :=
  ∀ {origin : Nat}, source.Graftable depth origin →
    ∀ {tree : Arena} {loose : List Nat} {parent : Nat}, tree.Linked loose → parent < tree.size →
      ∃ after, graft? source depth origin parent tree = some (tree.size, after) ∧
        Grafted tree after loose parent

variable {source tree after : Arena} {depth origin parent : Nat} {loose children : List Nat}
  {node : ArenaNode}

theorem adopt?_cons (source : Arena) (depth parent child : Nat) (rest : List Nat) (tree : Arena) :
    adopt? source depth parent (child :: rest) tree =
      (graft? source depth child parent tree).bind fun found =>
        (found.2.updateChildren? parent (· ++ [found.1])).bind
          (adopt? source depth parent rest) := by
  unfold adopt?
  rw [List.foldlM_cons]
  cases graft? source depth child parent tree <;> rfl

/-- Copying a node is copying its children into the new node. -/
theorem graft?_succ (source : Arena) (depth origin parent : Nat) (tree : Arena) :
    graft? source (depth + 1) origin parent tree = (source.node? origin).bind fun node =>
      (adopt? source depth tree.size node.children
        (tree.push { node with parent := some parent, children := [] })).map (tree.size, ·) := by
  rw [graft?]
  cases source.node? origin with
  | none => rfl
  | some node => exact Option.map_eq_bind.symm

/-- A copy becomes the last child of the node that it was made for. -/
theorem Grafted.adopted (h : Grafted tree after loose parent) (hl : tree.Linked loose)
    (hn : tree.node? parent = some node) (takes : node.takesChildren = true) :
    ∃ last, after.updateChildren? parent (· ++ [tree.size]) = some last ∧
      Adopted tree last loose parent := by
  have hlt := lt_of_node? hn
  have hn' : after.node? parent = some node := (h.old hlt).trans hn
  obtain ⟨last, hlast, hu⟩ :=
    update?_of_node? hn' fun node => { node with children := node.children ++ [tree.size] }
  have apart : tree.size ∉ loose := fun hm => Nat.lt_irrefl _ (hl.loose_lt hm)
  refine ⟨last, hlast, ?_⟩
  constructor
  case linked => exact h.linked.addChild hn' hu ⟨hlt, h.top⟩ apart takes
  case size => exact hu.size ▸ Nat.le_of_lt h.size
  case old =>
    intro k hk hne
    rw [hu.other hne, h.old hk]
  case parent =>
    intro found hf
    cases hn.symm.trans hf
    exact ⟨_, hu.self hn', rfl, rfl⟩

theorem Adopted.trans {middle : Arena} (h : Adopted tree middle loose parent)
    (h' : Adopted middle after loose parent) : Adopted tree after loose parent where
  linked := h'.linked
  size := Nat.le_trans h.size h'.size
  old hk hne := (h'.old (Nat.lt_of_lt_of_le hk h.size) hne).trans (h.old hk hne)
  parent hn := by
    obtain ⟨same, hs, hc, hp⟩ := h.parent hn
    obtain ⟨last, hl, hc', hp'⟩ := h'.parent hs
    exact ⟨last, hl, hc'.trans hc, hp'.trans hp⟩

theorem Adopted.refl (h : tree.Linked loose) : Adopted tree tree loose parent where
  linked := h
  size := Nat.le_refl _
  old _ _ := rfl
  parent hn := ⟨_, hn, rfl, rfl⟩

/-- A node that may have children takes copies. -/
theorem Grafts.adopts (hg : source.Grafts depth)
    (hc : ∀ child ∈ children, source.Graftable depth child) (h : tree.Linked loose)
    (hn : tree.node? parent = some node) (takes : children = [] ∨ node.takesChildren = true) :
    ∃ after, adopt? source depth parent children tree = some after ∧
      Adopted tree after loose parent := by
  induction children generalizing tree node with
  | nil => exact ⟨tree, rfl, .refl h⟩
  | cons child rest ih =>
    obtain ⟨hchild, hrest⟩ := List.forall_mem_cons.mp hc
    have takes := takes.resolve_left (List.cons_ne_nil child rest)
    obtain ⟨middle, hgraft, grafted⟩ := hg hchild h (lt_of_node? hn)
    obtain ⟨next, hnext, adopted⟩ := grafted.adopted h hn takes
    obtain ⟨same, hs, hsame, _⟩ := adopted.parent hn
    have takes' : same.takesChildren = true := by rwa [ArenaNode.takesChildren, hsame]
    obtain ⟨after, ha, others⟩ := ih hrest adopted.linked hs (.inr takes')
    refine ⟨after, ?_, adopted.trans others⟩
    rw [adopt?_cons, hgraft, Option.bind_some, hnext, Option.bind_some, ha]

/-- The children of a node lie after it, so they can be copied within a smaller depth. -/
theorem Linked.graftable_child {loose : List Nat} (h : source.Linked loose)
    (hn : source.node? origin = some node) (hd : source.size ≤ origin + (depth + 1)) :
    ∀ child ∈ node.children, source.Graftable depth child := by
  intro child hm
  obtain ⟨hlt, below, hb, _⟩ := h.child hn child hm
  refine ⟨⟨below, hb, fun hnone => ?_⟩, by omega⟩
  rw [h.only hb hnone] at hlt
  exact Nat.not_lt_zero _ hlt

/-- Copying from a linked arena succeeds. -/
theorem Linked.grafts {outer : List Nat} (h : source.Linked outer) (depth : Nat) :
    source.Grafts depth := by
  induction depth with
  | zero =>
    intro origin hgraft
    obtain ⟨⟨node, hn, _⟩, hd⟩ := hgraft
    exact absurd (lt_of_node? hn) (Nat.not_lt.mpr hd)
  | succ depth ih =>
    intro origin hgraft tree loose parent hl hp
    obtain ⟨⟨node, hn, hcontent⟩, hd⟩ := hgraft
    obtain ⟨content, hc⟩ := Option.ne_none_iff_exists'.mp hcontent
    have pushed := hl.push content node.looped parent
    have hnew := (node?_push tree ⟨some content, node.looped, some parent, []⟩ tree.size).trans
      (if_pos rfl)
    have takes : node.children = [] ∨
        ArenaNode.takesChildren ⟨some content, node.looped, some parent, []⟩ = true := by
      cases ht : node.takesChildren with
      | false => exact .inl (h.leaf hn ht)
      | true =>
        rw [ArenaNode.takesChildren, hc] at ht
        exact .inr ht
    obtain ⟨after, ha, adopted⟩ := ih.adopts (h.graftable_child hn hd) pushed hnew takes
    refine ⟨after, ?_, ?_⟩
    · rw [← hc] at ha
      rw [graft?_succ, hn, Option.bind_some, ha]
      rfl
    · constructor
      case linked => exact adopted.linked
      case size => exact size_lt_of_push adopted.size
      case old =>
        intro k hk
        rw [adopted.old (by rw [size_push]; omega) (Nat.ne_of_gt hk), node?_push_of_lt hk]
      case top =>
        obtain ⟨same, hs, _, hp⟩ := adopted.parent hnew
        exact ⟨same, hs, hp⟩

/-- The second arena has copies under a parent that does not name them yet. -/
structure GraftedAll (tree after : Arena) (loose : List Nat) (parent : Nat) (ids : List Nat) :
    Prop where
  linked : after.Linked (ids ++ loose)
  size : tree.size ≤ after.size
  old {k : Nat} : k < tree.size → after.node? k = tree.node? k
  nodup : ids.Nodup
  new : ∀ id ∈ ids, tree.size ≤ id ∧
    ∃ node, after.node? id = some node ∧ node.parent = some parent

/-- The copies can be named by their parent, which comes before them. -/
theorem GraftedAll.child {ids : List Nat} (h : GraftedAll tree after loose parent ids)
    (hp : parent < tree.size) :
    ∀ id ∈ ids, parent < id ∧ ∃ child, after.node? id = some child ∧ child.parent = some parent :=
  fun id hid => ⟨Nat.lt_of_lt_of_le hp (h.new id hid).1, (h.new id hid).2⟩

theorem Grafts.graftsAll (hg : source.Grafts depth)
    (hc : ∀ child ∈ children, source.Graftable depth child) (h : tree.Linked loose)
    (hp : parent < tree.size) :
    ∃ ids after, graftAll? source depth parent children tree = some (ids, after) ∧
      GraftedAll tree after loose parent ids := by
  induction children generalizing tree loose with
  | nil => exact ⟨[], tree, rfl, h, Nat.le_refl _, fun _ => rfl, List.nodup_nil, by simp⟩
  | cons child rest ih =>
    obtain ⟨hchild, hrest⟩ := List.forall_mem_cons.mp hc
    obtain ⟨middle, hgraft, grafted⟩ := hg hchild h hp
    obtain ⟨ids, after, ha, others⟩ :=
      ih hrest grafted.linked (Nat.lt_trans hp grafted.size)
    have later : ∀ id ∈ ids, tree.size < id := fun id hid =>
      Nat.lt_of_lt_of_le grafted.size (others.new id hid).1
    refine ⟨tree.size :: ids, after, ?_, ?_⟩
    · simp only [graftAll?, hgraft, ha, Option.bind_eq_bind, Option.bind_some]
    · constructor
      case linked =>
        refine others.linked.congr fun id => ?_
        simp only [List.cons_append, List.mem_cons, List.mem_append]
        exact or_left_comm
      case size => exact Nat.le_trans (Nat.le_of_lt grafted.size) others.size
      case old =>
        intro k hk
        rw [others.old (Nat.lt_trans hk grafted.size), grafted.old hk]
      case nodup =>
        exact List.nodup_cons.mpr
          ⟨fun hm => Nat.lt_irrefl _ (later _ hm), others.nodup⟩
      case new =>
        refine List.forall_mem_cons.mpr ⟨⟨Nat.le_refl _, ?_⟩, fun id hid => ?_⟩
        · obtain ⟨node, hn, hnp⟩ := grafted.top
          exact ⟨node, (others.old grafted.size).trans hn, hnp⟩
        · exact ⟨Nat.le_of_lt (later id hid), (others.new id hid).2⟩

/-- The nodes below the document of a linked arena can be copied. -/
theorem Linked.graftable_top {outer : List Nat} (h : source.Linked outer)
    (hn : source.node? 0 = some node) :
    ∀ child ∈ node.children, source.Graftable source.size child :=
  h.graftable_child hn (by omega)

theorem Linked.graftsTop {outer : List Nat} (hs : source.Linked outer) (h : tree.Linked loose)
    (hp : parent < tree.size) :
    ∃ ids after, graftTop? source parent tree = some (ids, after) ∧
      GraftedAll tree after loose parent ids := by
  obtain ⟨document, hd, _⟩ := hs.document
  obtain ⟨ids, after, ha, grafted⟩ :=
    Grafts.graftsAll (hs.grafts source.size) (hs.graftable_top hd) h hp
  refine ⟨ids, after, ?_, grafted⟩
  rw [graftTop?, hd]
  exact ha

end Arena

end MarkupTemplate
