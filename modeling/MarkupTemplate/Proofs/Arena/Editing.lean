import MarkupTemplate.Proofs.Arena.Grafting

namespace MarkupTemplate

namespace Arena

variable {tree middle after fragment : Arena} {id parent : Nat} {loose run : List Nat}
  {node owner : ArenaNode}

/-- Nothing but the document. -/
theorem linked_empty : Linked {} [] := by
  have root {k : Nat} {node : ArenaNode} (hn : node? {} k = some node) :
      k = 0 ∧ node = { content := none } := by
    obtain ⟨hk, he⟩ := Array.getElem?_eq_some_iff.mp hn
    obtain rfl : k = 0 := Nat.lt_one_iff.mp hk
    exact ⟨rfl, he.symm⟩
  constructor
  case child =>
    intro owner node hn id hid
    rw [(root hn).2] at hid
    cases hid
  case nodup =>
    intro owner node hn
    rw [(root hn).2]
    exact List.nodup_nil
  case listed =>
    intro id parent node hn hp
    rw [(root hn).2] at hp
    cases hp
  case loose_lt => exact fun hid => absurd hid List.not_mem_nil
  case loose_notMem => exact fun hid => absurd hid List.not_mem_nil
  case document => exact ⟨_, rfl, rfl, rfl⟩
  case only => exact fun hn _ => (root hn).1
  case leaf =>
    intro id node hn _
    rw [(root hn).2]

/-- Adding a node without children keeps the links. -/
theorem Linked.append (h : tree.Linked loose) (hn : tree.node? parent = some node)
    (takes : node.takesChildren = true) (content : Content) :
    ∃ after, tree.append? parent content = some after ∧ Adopted tree after loose parent ∧
      after.node? tree.size = some ⟨some content, false, some parent, []⟩ := by
  have hlt := lt_of_node? hn
  have pushed := h.push content false parent
  have hnew := (node?_push tree ⟨some content, false, some parent, []⟩ tree.size).trans (if_pos rfl)
  have grafted : Grafted tree (tree.push ⟨some content, false, some parent, []⟩) loose parent :=
    ⟨pushed, by simp, fun hk => node?_push_of_lt hk _, _, hnew, rfl⟩
  obtain ⟨after, ha, adopted⟩ := grafted.adopted h hn takes
  exact ⟨after, ha, adopted, ((updated_of_update? ha).other (Nat.ne_of_lt hlt)).trans hnew⟩

/-- A node that no other names may count as loose. -/
theorem Linked.loosen (h : tree.Linked loose) (hid : id < tree.size)
    (hm : ∀ {owner : Nat} {node : ArenaNode}, tree.node? owner = some node → id ∉ node.children) :
    tree.Linked (id :: loose) where
  child := h.child
  nodup := h.nodup
  listed hn hp hk := h.listed hn hp (mt (List.mem_cons_of_mem id) hk)
  loose_lt hk := by
    rcases List.mem_cons.mp hk with rfl | hk
    · exact hid
    · exact h.loose_lt hk
  loose_notMem hk hn := by
    rcases List.mem_cons.mp hk with rfl | hk
    · exact hm hn
    · exact h.loose_notMem hk hn
  document := h.document
  only := h.only
  leaf := h.leaf

/-- A loose node can be left without a parent. -/
theorem Linked.orphaned (h : tree.Linked (id :: loose)) :
    ∃ after, tree.orphan? id = some after ∧ after.Linked loose ∧
      Updated tree after id fun node => { node with parent := none } := by
  obtain ⟨node, hn⟩ := node?_of_lt (h.loose_lt List.mem_cons_self)
  obtain ⟨after, ha, hu⟩ := update?_of_node? hn fun node => { node with parent := none }
  exact ⟨after, ha, h.orphan hu, hu⟩

theorem idxOf?_of_mem {ids : List Nat} (h : id ∈ ids) : ∃ index, ids.idxOf? id = some index := by
  cases hi : ids.idxOf? id with
  | none => exact absurd h (List.idxOf?_eq_none_iff.mp hi)
  | some index => exact ⟨index, rfl⟩

theorem indexInParent?_top (hn : tree.node? id = some node) (hp : node.parent = none) :
    tree.indexInParent? id = some none := by
  simp [indexInParent?, hn, hp]

theorem indexInParent?_child (hn : tree.node? id = some node) (hp : node.parent = some parent)
    (ho : tree.node? parent = some owner) :
    tree.indexInParent? id = some ((owner.children.idxOf? id).map (parent, ·)) := by
  simp [indexInParent?, hn, hp, ho]

/-- The second arena is the first one with nodes taken out, and has its links. -/
structure Detached (tree after : Arena) (run : List Nat) : Prop where
  linked : after.Linked []
  size : after.size = tree.size
  node (k : Nat) : after.node? k = (tree.node? k).map fun node =>
    { node with
      children := run.foldl List.erase node.children
      parent := if k ∈ run then none else node.parent }

theorem Detached.refl (h : tree.Linked []) : Detached tree tree [] :=
  ⟨h, rfl, fun k => by cases tree.node? k <;> simp⟩

theorem Detached.trans (h : Detached tree middle [id]) (h' : Detached middle after run) :
    Detached tree after (id :: run) := by
  refine ⟨h'.linked, h'.size.trans h.size, fun k => ?_⟩
  rw [h'.node, h.node, Option.map_map]
  congr 1
  funext node
  by_cases hk : k ∈ run <;> simp [hk]

/-- A node that is left without a parent, and that no node names any more. -/
theorem Detached.of_orphaned (hl : after.Linked []) (hsize : middle.size = tree.size)
    (hu : Updated middle after id fun node => { node with parent := none })
    (hm : ∀ k, middle.node? k = (tree.node? k).map fun node =>
      { node with children := node.children.erase id }) : Detached tree after [id] := by
  refine ⟨hl, hu.size.trans hsize, fun k => ?_⟩
  rw [hu.node, hm]
  by_cases hk : id = k
  · simp [hk, Function.comp_def]
  · simp [hk, Ne.symm hk]

/-- A node can be taken out. -/
theorem Linked.detach (h : tree.Linked []) (hn : tree.node? id = some node) :
    ∃ after, tree.detach? id = some after ∧ Detached tree after [id] := by
  cases hp : node.parent with
  | none =>
    have unnamed {owner : Nat} {another : ArenaNode} (ho : tree.node? owner = some another) :
        id ∉ another.children := fun hm => by
      obtain ⟨_, child, hc, hcp⟩ := h.child ho id hm
      cases hn.symm.trans hc
      cases hp.symm.trans hcp
    obtain ⟨after, ha, hl, hu⟩ := (h.loosen (lt_of_node? hn) unnamed).orphaned
    refine ⟨after, ?_, .of_orphaned hl rfl hu fun k => ?_⟩
    · simp only [detach?, indexInParent?_top hn hp, Option.bind_eq_bind, Option.bind_some, ha]
    · cases hk : tree.node? k with
      | none => rfl
      | some found => rw [Option.map_some, List.erase_of_not_mem (unnamed hk)]
  | some parent =>
    obtain ⟨owner, ho, hm⟩ := h.listed hn hp List.not_mem_nil
    obtain ⟨index, hi⟩ := idxOf?_of_mem hm
    obtain ⟨middle, hmiddle, hu⟩ := update?_of_node? ho fun node =>
      { node with children := node.children.eraseIdx index }
    obtain ⟨after, ha, hl, hu'⟩ := (h.removeChild ho hi hu).orphaned
    refine ⟨after, ?_, .of_orphaned hl hu.size hu' fun k => ?_⟩
    · simp only [detach?, indexInParent?_child hn hp ho, hi, Option.map_some, updateChildren?,
        Option.bind_eq_bind, Option.bind_some, hmiddle, ha]
    · by_cases he : parent = k
      · subst he
        rw [hu.self ho, ho, Option.map_some, List.erase_eq_eraseIdx, hi]
      · rw [hu.other he]
        cases hk : tree.node? k with
        | none => rfl
        | some found =>
          have unnamed : id ∉ found.children := fun hm' => he (h.owner_unique ho hm hk hm').symm
          rw [Option.map_some, List.erase_of_not_mem unnamed]

theorem node?_of_indexInParent? {found : Option (Nat × Nat)}
    (h : tree.indexInParent? id = some found) : ∃ node, tree.node? id = some node := by
  cases hn : tree.node? id with
  | none => simp [indexInParent?, hn] at h
  | some node => exact ⟨node, rfl⟩

theorem node?_of_detach? (h : tree.detach? id = some after) :
    ∃ node, tree.node? id = some node := by
  obtain ⟨found, hf, _⟩ := Option.bind_eq_some_iff.mp h
  exact node?_of_indexInParent? hf

/-- Nodes can be taken out one after the other. -/
theorem Linked.detachAll (h : tree.Linked [])
    (hrun : ∀ id ∈ run, ∃ node, tree.node? id = some node) :
    ∃ after, run.foldlM detach? tree = some after ∧ Detached tree after run := by
  induction run generalizing tree with
  | nil => exact ⟨tree, rfl, .refl h⟩
  | cons id rest ih =>
    obtain ⟨⟨node, hn⟩, hrest⟩ := List.forall_mem_cons.mp hrun
    obtain ⟨middle, hmiddle, hd⟩ := h.detach hn
    obtain ⟨after, ha, hd'⟩ := ih hd.linked fun k hk => by
      obtain ⟨found, hf⟩ := hrest k hk
      exact node?_of_lt (hd.size ▸ lt_of_node? hf)
    refine ⟨after, ?_, hd.trans hd'⟩
    rw [List.foldlM_cons, hmiddle]
    exact ha

theorem node?_of_detachAll? (h : run.foldlM detach? tree = some after) (hl : tree.Linked []) :
    ∀ id ∈ run, ∃ node, tree.node? id = some node := by
  induction run generalizing tree with
  | nil => simp
  | cons id rest ih =>
    rw [List.foldlM_cons] at h
    obtain ⟨middle, hm, h⟩ := Option.bind_eq_some_iff.mp h
    obtain ⟨node, hn⟩ := node?_of_detach? hm
    obtain ⟨same, hsame, hd⟩ := hl.detach hn
    cases hm.symm.trans hsame
    refine List.forall_mem_cons.mpr ⟨⟨node, hn⟩, fun k hk => ?_⟩
    obtain ⟨found, hf⟩ := ih h hd.linked k hk
    exact node?_of_lt (hd.size ▸ lt_of_node? hf)

theorem idxOf?_append_cons {first : List Nat} (h : id ∉ first) (last : List Nat) :
    (first ++ id :: last).idxOf? id = some first.length := by
  induction first with
  | nil => simp [List.idxOf?_cons]
  | cons k first ih =>
    obtain ⟨hk, hfirst⟩ := not_or.mp (mt List.mem_cons.mpr h)
    have hk' : (k == id) = false := by simpa using fun he => hk he.symm
    rw [List.cons_append, List.idxOf?_cons, hk', if_neg Bool.false_ne_true, ih hfirst]
    rfl

/-- What follows a node in a part of a list follows it in the list. -/
theorem sublist_of_cons_sublist {first last : List Nat} (h : id ∉ first)
    (hs : (id :: run).Sublist (first ++ id :: last)) : run.Sublist last := by
  induction first with
  | nil => exact List.cons_sublist_cons.mp hs
  | cons k first ih =>
    obtain ⟨hk, hfirst⟩ := not_or.mp (mt List.mem_cons.mpr h)
    cases hs with
    | cons _ hs => exact ih hfirst hs
    | cons_cons => exact absurd rfl hk

/-- Nodes stay if only others are taken away. -/
theorem le_length_foldl_erase {first last : List Nat} (h : ∀ id ∈ run, id ∉ first) :
    first.length ≤ (run.foldl List.erase (first ++ last)).length := by
  induction run generalizing last with
  | nil => simp
  | cons id rest ih =>
    obtain ⟨hid, hrest⟩ := List.forall_mem_cons.mp h
    rw [List.foldl_cons, List.erase_append_right _ hid]
    exact ih hrest

/-- Nodes are children of one node, in order. -/
def Siblings (tree : Arena) (run : List Nat) : Prop :=
  ∃ parent owner, tree.node? parent = some owner ∧ run.Sublist owner.children

theorem splice?_of_le {index : Nat} {ids : List Nat} (ho : tree.node? parent = some owner)
    (hindex : index ≤ owner.children.length) :
    tree.splice? parent index ids =
      tree.updateChildren? parent fun others => others.take index ++ ids ++ others.drop index := by
  simp [splice?, ho, hindex]

theorem le_of_splice? {index : Nat} {ids : List Nat} (ho : tree.node? parent = some owner)
    (h : tree.splice? parent index ids = some after) : index ≤ owner.children.length := by
  refine Decidable.by_contra fun hindex => ?_
  simp [splice?, ho, hindex] at h

/-- Copies take their place among the children of the node that they were made for. -/
theorem GraftedAll.spliced {ids : List Nat} (h : GraftedAll tree middle [] parent ids)
    (index : Nat) (ho : tree.node? parent = some owner)
    (takes : owner.takesChildren = true) (hindex : index ≤ owner.children.length) :
    ∃ after, middle.splice? parent index ids = some after ∧ after.Linked [] ∧
      Updated middle after parent fun node =>
        { node with children := node.children.take index ++ ids ++ node.children.drop index } := by
  have hlt := lt_of_node? ho
  have ho' : middle.node? parent = some owner := (h.old hlt).trans ho
  obtain ⟨after, ha, hu⟩ := update?_of_node? ho' fun node =>
    { node with children := node.children.take index ++ ids ++ node.children.drop index }
  refine ⟨after, (splice?_of_le ho' hindex).trans ha, ?_, hu⟩
  refine Linked.splice ids (owner.children.take index) (owner.children.drop index) h.linked ho'
    (List.take_append_drop ..).symm ?_ (h.child hlt) h.nodup (by simp) (.inr takes)
  refine ⟨hu.size, fun k => ?_⟩
  rw [hu.node]
  split
  next he => rw [← he, ho']; rfl
  next => rfl

theorem takesChildren_of_mem (h : tree.Linked loose) (ho : tree.node? parent = some owner)
    (hm : id ∈ owner.children) : owner.takesChildren = true := by
  cases ht : owner.takesChildren with
  | true => rfl
  | false =>
    rw [h.leaf ho ht] at hm
    cases hm

/-- Putting a fragment where nodes are taken out. -/
theorem replaceRun?_cons {first index : Nat} {rest : List Nat}
    (h : tree.indexInParent? first = some (some (parent, index))) :
    tree.replaceRun? (first :: rest) fragment =
      ((first :: rest).foldlM detach? tree).bind fun middle =>
        (graftTop? fragment parent middle).bind fun found =>
          found.2.splice? parent index found.1 := by
  simp only [replaceRun?, h, Option.bind_eq_bind, Option.bind_some]

/-- Up to the last step, nodes are taken out and copies are made. -/
theorem Linked.replaceRun?_eq {first index : Nat} {rest : List Nat} (h : tree.Linked [])
    (hf : fragment.Linked []) (hn : tree.node? first = some node)
    (hp : node.parent = some parent) (ho : tree.node? parent = some owner)
    (hi : owner.children.idxOf? first = some index)
    (hrun : ∀ id ∈ first :: rest, ∃ node, tree.node? id = some node) :
    ∃ middle next ids,
      tree.replaceRun? (first :: rest) fragment = next.splice? parent index ids ∧
      Detached tree middle (first :: rest) ∧
      graftTop? fragment parent middle = some (ids, next) ∧
      GraftedAll middle next [] parent ids := by
  have position : tree.indexInParent? first = some (some (parent, index)) := by
    rw [indexInParent?_child hn hp ho, hi]
    rfl
  obtain ⟨middle, hmiddle, hd⟩ := h.detachAll hrun
  obtain ⟨ids, next, hnext, grafted⟩ := hf.graftsTop hd.linked (hd.size ▸ lt_of_node? ho)
  refine ⟨middle, next, ids, ?_, hd, hnext, grafted⟩
  rw [replaceRun?_cons position, hmiddle, Option.bind_some, hnext, Option.bind_some]

/-- Putting a fragment where nodes are taken out keeps the links. -/
theorem Linked.replaceRun (h : tree.Linked []) (hf : fragment.Linked [])
    (hr : tree.replaceRun? run fragment = some after) : after.Linked [] := by
  cases run with
  | nil =>
    cases hr
    exact h
  | cons first rest =>
    obtain ⟨position, hposition, hrest⟩ := Option.bind_eq_some_iff.mp hr
    obtain ⟨node, hn⟩ := node?_of_indexInParent? hposition
    cases hp : node.parent with
    | none =>
      cases (indexInParent?_top hn hp).symm.trans hposition
      cases hrest
      exact h
    | some parent =>
      obtain ⟨owner, ho, hm⟩ := h.listed hn hp List.not_mem_nil
      obtain ⟨index, hi⟩ := idxOf?_of_mem hm
      rw [indexInParent?_child hn hp ho, hi] at hposition
      cases hposition
      obtain ⟨detached, hdetached, _⟩ := Option.bind_eq_some_iff.mp hrest
      obtain ⟨middle, next, ids, he, hd, _, grafted⟩ :=
        h.replaceRun?_eq hf hn hp ho hi (node?_of_detachAll? hdetached h)
      rw [he] at hr
      have hs := (hd.node parent).trans (congrArg _ ho)
      have hs' := (grafted.old (lt_of_node? hs)).trans hs
      have takes := takesChildren_of_mem h ho hm
      obtain ⟨last, hlast, hl, _⟩ := grafted.spliced _ hs takes (le_of_splice? hs' hr)
      cases hr.symm.trans hlast
      exact hl

/-- Siblings in order can be replaced. -/
theorem Linked.replaceRun_siblings (h : tree.Linked []) (hf : fragment.Linked [])
    (hs : tree.Siblings run) : ∃ after, tree.replaceRun? run fragment = some after := by
  obtain ⟨parent, owner, ho, hsub⟩ := hs
  cases run with
  | nil => exact ⟨tree, rfl⟩
  | cons first rest =>
    have hm := hsub.subset List.mem_cons_self
    obtain ⟨_, node, hn, hp⟩ := h.child ho first hm
    obtain ⟨before, later, hsplit, hbefore⟩ := List.eq_append_cons_of_mem hm
    have hi : owner.children.idxOf? first = some before.length := by
      rw [hsplit]
      exact idxOf?_append_cons hbefore later
    have hrun : ∀ id ∈ first :: rest, ∃ node, tree.node? id = some node := fun id hid => by
      obtain ⟨_, below, hb, _⟩ := h.child ho id (hsub.subset hid)
      exact ⟨below, hb⟩
    obtain ⟨middle, next, ids, he, hd, _, grafted⟩ := h.replaceRun?_eq hf hn hp ho hi hrun
    have hindex : before.length ≤ ((first :: rest).foldl List.erase owner.children).length := by
      have hnodup := h.nodup ho
      rw [hsplit] at hsub hnodup
      have apart : ∀ id ∈ rest, id ∉ before := fun id hid hm => by
        have hlater := (sublist_of_cons_sublist hbefore hsub).subset hid
        exact (List.nodup_append.mp hnodup).2.2 id hm id (List.mem_cons_of_mem first hlater) rfl
      rw [hsplit, List.foldl_cons, List.erase_append_right _ hbefore, List.erase_cons_head]
      exact le_length_foldl_erase apart
    have takes := takesChildren_of_mem h ho hm
    obtain ⟨after, ha, _⟩ :=
      grafted.spliced _ ((hd.node parent).trans (congrArg _ ho)) takes hindex
    exact ⟨after, he.trans ha⟩

/-- Nodes that were taken from the document at once can all be left without a parent. -/
theorem Linked.orphanedAll {ids : List Nat} (h : tree.Linked (ids ++ loose)) :
    ∃ after, ids.foldlM orphan? tree = some after ∧ after.Linked loose ∧
      ∀ {k : Nat} {found : ArenaNode}, tree.node? k = some found →
        ∃ same, after.node? k = some same ∧ same.content = found.content ∧
          same.children = found.children := by
  induction ids generalizing tree with
  | nil => exact ⟨tree, rfl, h, fun hf => ⟨_, hf, rfl, rfl⟩⟩
  | cons id rest ih =>
    have first : tree.Linked (id :: (rest ++ loose)) := h
    obtain ⟨middle, hmiddle, hl, hu⟩ := first.orphaned
    obtain ⟨after, ha, hl', hsame⟩ := ih hl
    refine ⟨after, ?_, hl', fun {k found} hf => ?_⟩
    · rw [List.foldlM_cons, hmiddle]
      exact ha
    · by_cases he : id = k
      · subst he
        obtain ⟨same, hs, hc, hchildren⟩ := hsame (hu.self hf)
        exact ⟨same, hs, hc, hchildren⟩
      · exact hsame ((hu.other he).trans hf)

/-- Putting a fragment in the place of all nodes. -/
theorem Linked.replaceDocument (h : tree.Linked []) (hf : fragment.Linked []) :
    ∃ after, tree.replaceDocument? fragment = some after ∧ after.Linked [] := by
  obtain ⟨document, hd, hcontent, _⟩ := h.document
  obtain ⟨emptied, hemptied, hu⟩ := update?_of_node? hd fun node => { node with children := [] }
  obtain ⟨middle, hmiddle, hl, hsame⟩ := (h.removeChildren hd hu).orphanedAll
  obtain ⟨root, hroot, hc, hchildren⟩ := hsame (hu.self hd)
  obtain ⟨ids, next, hnext, grafted⟩ := hf.graftsTop hl (lt_of_node? hroot)
  have hroot' : next.node? 0 = some root := (grafted.old (lt_of_node? hroot)).trans hroot
  obtain ⟨after, ha, hu'⟩ := update?_of_node? hroot' fun node => { node with children := ids }
  refine ⟨after, ?_, ?_⟩
  · simp only [replaceDocument?, hd, updateChildren?, hemptied, hmiddle, hnext,
      Option.bind_eq_bind, Option.bind_some, ha]
  · refine Linked.splice ids [] [] grafted.linked hroot' hchildren ?_
      (grafted.child (lt_of_node? hroot)) grafted.nodup (by simp) (.inr ?_)
    · simpa using hu'
    · rw [ArenaNode.takesChildren, hc, hcontent]
      rfl

/-- Adding a fragment after all nodes. -/
theorem Linked.appendFragment (h : tree.Linked []) (hf : fragment.Linked []) :
    ∃ after, tree.appendFragment? fragment = some after ∧ after.Linked [] := by
  obtain ⟨document, hd, hcontent, _⟩ := h.document
  obtain ⟨top, htop, _⟩ := hf.document
  have takes : document.takesChildren = true := by
    rw [ArenaNode.takesChildren, hcontent]
    rfl
  obtain ⟨after, ha, adopted⟩ :=
    Grafts.adopts (hf.grafts fragment.size) (hf.graftable_top htop) h hd (.inr takes)
  refine ⟨after, ?_, adopted.linked⟩
  rw [appendFragment?, htop]
  exact ha

/-- The nodes below a node as an arena of their own. -/
theorem Linked.childrenFragment (h : tree.Linked []) (hn : tree.node? id = some node) :
    ∃ after, tree.childrenFragment? id = some after ∧ after.Linked [] := by
  have root : ({} : Arena).node? 0 = some { content := none } := rfl
  obtain ⟨after, ha, adopted⟩ := Grafts.adopts (h.grafts tree.size)
    (h.graftable_child hn (Nat.le_trans (Nat.le_succ _) (Nat.le_add_left ..))) linked_empty root
    (.inr rfl)
  refine ⟨after, ?_, adopted.linked⟩
  rw [childrenFragment?, hn]
  exact ha

/-- Marking a loop. -/
theorem Linked.markLooped (h : tree.Linked []) (hn : tree.node? id = some node) :
    ∃ after, tree.markLooped? id = some after ∧ after.Linked [] := by
  obtain ⟨after, ha, hu⟩ := update?_of_node? hn fun node =>
    { node with looped := node.looped || (node.content.any fun c => c.element?.isSome) }
  exact ⟨after, ha, h.relabel hn hu rfl rfl (.inl rfl) (fun _ hk => hk) fun _ hk hgone =>
    absurd hk hgone⟩

end Arena

end MarkupTemplate
