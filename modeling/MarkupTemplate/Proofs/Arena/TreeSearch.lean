import MarkupTemplate.Markup.Search
import MarkupTemplate.Proofs.Arena.ForestEdits

namespace MarkupTemplate

namespace ArenaNode

variable {node : ArenaNode} {content : Content} {e : Element}

theorem element?_of_content (h : node.content = some content) :
    node.element? = content.element? := by
  rw [element?, h, Option.bind_some]

theorem isElement_of_content (h : node.content = some content) (property : Element → Bool) :
    node.isElement property = content.isElement property := by
  rw [isElement, element?_of_content h, Content.isElement]

theorem content_of_element? (h : node.element? = some e) : node.content = some (.element e) := by
  obtain ⟨content, hc, he⟩ := Option.bind_eq_some_iff.mp h
  cases content with
  | element other =>
    cases he
    exact hc
  | text | verbatim => cases he

theorem exists_of_isElement {property : Element → Bool} (h : node.isElement property = true) :
    ∃ e, node.content = some (.element e) ∧ property e = true := by
  obtain ⟨e, he, hp⟩ := (Option.any_eq_true ..).mp h
  exact ⟨e, content_of_element? he, hp⟩

end ArenaNode

namespace Arena

/-- The node is the document or below it. -/
inductive Attached (tree : Arena) : Nat → Prop
  | document : Attached tree 0
  | child {parent id : Nat} {owner : ArenaNode} : Attached tree parent →
      tree.node? parent = some owner → id ∈ owner.children → Attached tree id

/-- One of the nodes above the node is a loop that is not marked. -/
inductive InWaitingLoop (tree : Arena) : Nat → Prop
  | parent {parent id : Nat} {node owner : ArenaNode} : tree.node? id = some node →
      node.parent = some parent → tree.node? parent = some owner → owner.isWaitingLoop = true →
      InWaitingLoop tree id
  | above {parent id : Nat} {node : ArenaNode} : tree.node? id = some node →
      node.parent = some parent → InWaitingLoop tree parent → InWaitingLoop tree id

variable {tree : Arena} {parent id : Nat} {ids all : List Nat} {node owner : ArenaNode}
  {forest : Forest}

/-- What is below a listed node is listed. -/
theorem Lists.child_mem {k : Nat} (h : tree.Lists parent ids forest all) (hk : k ∈ all)
    (hn : tree.node? k = some node) : ∀ id ∈ node.children, id ∈ all := by
  induction h with
  | nil => cases hk
  | cons hn' _ _ hchildren _ ihc ihn =>
    intro id hid
    rcases List.mem_cons.mp hk with rfl | hk
    · cases hn.symm.trans hn'
      exact List.mem_cons_of_mem _ (List.mem_append_left _ (hchildren.subset id hid))
    · refine List.mem_cons_of_mem _ (List.mem_append.mpr ?_)
      exact (List.mem_append.mp hk).imp (fun hk => ihc hk id hid) fun hk => ihn hk id hid

theorem Lists.attached (h : tree.Lists parent ids forest all)
    (hids : ∀ id ∈ ids, tree.Attached id) : ∀ id ∈ all, tree.Attached id := by
  induction h with
  | nil => simp
  | cons hn _ _ _ _ ihc ihn =>
    obtain ⟨hid, hrest⟩ := List.forall_mem_cons.mp hids
    refine List.forall_mem_cons.mpr ⟨hid, fun k hk => ?_⟩
    rcases List.mem_append.mp hk with hk | hk
    · exact ihc (fun _ hc => .child hid hn hc) k hk
    · exact ihn hrest k hk

/-- The attached nodes of an arena in the order of the text are the document and these. -/
structure Order (tree : Arena) (forest : Forest) (all : List Nat) : Prop where
  lists : ∃ document, tree.node? 0 = some document ∧
    tree.Lists 0 document.children forest all
  pos : ∀ id ∈ all, 0 < id
  attached (id : Nat) : tree.Attached id ↔ id ∈ 0 :: all

theorem Holds.order (h : tree.Holds forest) : ∃ all, tree.Order forest all := by
  obtain ⟨document, all, hd, hlists, hpos⟩ := h
  refine ⟨all, ⟨document, hd, hlists⟩, hpos, fun id => ⟨fun ha => ?_, fun hm => ?_⟩⟩
  · induction ha with
    | document => exact List.mem_cons_self
    | child _ ho hm ih =>
      refine List.mem_cons_of_mem _ ?_
      rcases List.mem_cons.mp ih with rfl | hk
      · cases hd.symm.trans ho
        exact hlists.subset _ hm
      · exact hlists.child_mem hk ho _ hm
  · rcases List.mem_cons.mp hm with rfl | hm
    · exact .document
    · exact hlists.attached (fun _ hid => .child .document hd hid) id hm

theorem Linked.exists_holds (h : tree.Linked []) : ∃ forest, tree.Holds forest := by
  obtain ⟨document, hd, _⟩ := h.document
  obtain ⟨forest, all, hlists⟩ := h.exists_lists (h.child hd)
  exact ⟨forest, document, all, hd, hlists, h.lt_of_lists hlists⟩

theorem Attached.lt_size (h : tree.Linked []) (ha : tree.Attached id) : id < tree.size := by
  cases ha with
  | document =>
    obtain ⟨_, hd, _⟩ := h.document
    exact lt_of_node? hd
  | child _ ho hm =>
    obtain ⟨_, _, hn, _⟩ := h.child ho id hm
    exact lt_of_node? hn

section Finding

variable {property : Nat → Option Bool} {test : Nat → Bool} {depth : Nat}

/-- A search through nodes finds the first one in the order of the text. -/
theorem Linked.findSomeM?_lists (h : tree.Linked []) (hl : tree.Lists parent ids forest all)
    (hdepth : ∀ id ∈ all, tree.size ≤ id + depth)
    (tested : ∀ id ∈ all, property id = some (test id)) :
    ids.findSomeM? (tree.findBelow? property depth) = some (all.find? test) := by
  induction hl generalizing depth with
  | nil => rfl
  | @cons parent id node content rest inner others children next hn hc hp hchildren hnext ihc ihn =>
    obtain ⟨hd, hdepth⟩ := List.forall_mem_cons.mp hdepth
    obtain ⟨ht, tested⟩ := List.forall_mem_cons.mp tested
    obtain ⟨depth, rfl, deeper⟩ := exists_deeper hn hd
    have inside : ∀ k ∈ inner, tree.size ≤ k + depth := fun k hk =>
      deeper k (h.lt_of_lists hchildren k hk)
    have outside : ∀ k ∈ others, tree.size ≤ k + (depth + 1) := fun k hk =>
      hdepth k (List.mem_append_right _ hk)
    rw [List.findSomeM?_cons, findBelow?, ht, List.find?_cons]
    cases hid : test id with
    | true => rfl
    | false =>
      simp only [Option.bind_eq_bind, Option.bind_some, Bool.false_eq_true, if_false, hn,
        ihc inside fun k hk => tested k (List.mem_append_left _ hk), List.find?_append]
      cases inner.find? test with
      | some k => rfl
      | none => exact ihn outside fun k hk => tested k (List.mem_append_right _ hk)

/-- A search through all nodes finds the first attached one. -/
theorem Linked.find?_eq (h : tree.Linked []) (ho : tree.Order forest all)
    (tested : ∀ id ∈ 0 :: all, property id = some (test id)) :
    tree.find? property = some ((0 :: all).find? test) := by
  obtain ⟨document, hd, hlists⟩ := ho.lists
  obtain ⟨ht, tested⟩ := List.forall_mem_cons.mp tested
  obtain ⟨depth, hsize, deeper⟩ := exists_deeper hd (Nat.le_add_left ..)
  have below : ∀ k ∈ all, tree.size ≤ k + depth := fun k hk => deeper k (ho.pos k hk)
  rw [find?, hsize, findBelow?, ht, List.find?_cons]
  cases h0 : test 0 with
  | true => rfl
  | false =>
    simp only [Option.bind_eq_bind, Option.bind_some, Bool.false_eq_true, if_false, hd]
    exact h.findSomeM?_lists hlists below tested

/-- Looking for a loop above a node comes to an end. -/
theorem Linked.loopAbove? (h : tree.Linked []) {height : Nat} (hid : id < tree.size)
    (hheight : id < height) :
    ∃ found, tree.loopAbove? height id = some found ∧ (found = true ↔ tree.InWaitingLoop id) := by
  induction height generalizing id with
  | zero => exact absurd hheight (Nat.not_lt_zero _)
  | succ height ih =>
    obtain ⟨node, hn⟩ := node?_of_lt hid
    cases hp : node.parent with
    | none =>
      refine ⟨false, by simp [Arena.loopAbove?, hn, hp], nofun, fun hw => ?_⟩
      cases hw with
      | parent hn' hp' | above hn' hp' =>
        cases hn.symm.trans hn'
        cases hp.symm.trans hp'
    | some parent =>
      obtain ⟨owner, ho, hm⟩ := h.listed hn hp List.not_mem_nil
      have hlt := (h.child ho id hm).1
      cases hw : owner.isWaitingLoop with
      | true =>
        refine ⟨true, by simp [Arena.loopAbove?, hn, hp, ho, hw], fun _ => ?_, fun _ => rfl⟩
        exact .parent hn hp ho hw
      | false =>
        obtain ⟨found, hf, hiff⟩ := ih (lt_of_node? ho) (by omega)
        refine ⟨found, by simpa [Arena.loopAbove?, hn, hp, ho, hw] using hf, ?_⟩
        refine hiff.trans ⟨.above hn hp, fun hw' => ?_⟩
        cases hw' with
        | parent hn' hp' ho' hw' =>
          cases hn.symm.trans hn'
          cases hp.symm.trans hp'
          cases ho.symm.trans ho'
          cases hw.symm.trans hw'
        | above hn' hp' hw' =>
          cases hn.symm.trans hn'
          cases hp.symm.trans hp'
          exact hw'

/-- The node is an attached element with the property, and is in no loop that is not marked. -/
structure IsOuter (tree : Arena) (property : Element → Bool) (id : Nat) : Prop where
  attached : tree.Attached id
  element : ∃ node, tree.node? id = some node ∧ node.isElement property = true
  outside : ¬ tree.InWaitingLoop id

theorem Linked.isOuter? (h : tree.Linked []) (property : Element → Bool)
    (hid : tree.Attached id) :
    ∃ found, tree.isOuter? property id = some found ∧ (found = true ↔ tree.IsOuter property id) := by
  have hlt := hid.lt_size h
  obtain ⟨node, hn⟩ := node?_of_lt hlt
  cases he : node.isElement property with
  | false =>
    refine ⟨false, by simp [Arena.isOuter?, hn, he], nofun, fun ho => ?_⟩
    obtain ⟨same, hs, he'⟩ := ho.element
    cases hn.symm.trans hs
    cases he.symm.trans he'
  | true =>
    obtain ⟨found, hf, hiff⟩ := h.loopAbove? hlt hlt
    refine ⟨!found, by simp [Arena.isOuter?, hn, he, hf], ?_⟩
    rw [Bool.not_eq_true', ← Bool.not_eq_true, hiff]
    exact ⟨fun ho => ⟨hid, ⟨node, hn, he⟩, ho⟩, IsOuter.outside⟩

/-- Looking for an outer element comes to an end, and misses none. -/
theorem Linked.find?_isOuter (h : tree.Linked []) (property : Element → Bool) :
    (tree.find? (tree.isOuter? property) = some none ∧ ∀ id, ¬ tree.IsOuter property id) ∨
      ∃ id, tree.find? (tree.isOuter? property) = some (some id) ∧ tree.IsOuter property id := by
  obtain ⟨forest, hh⟩ := h.exists_holds
  obtain ⟨all, ho⟩ := hh.order
  have tested : ∀ id ∈ 0 :: all,
      tree.isOuter? property id = some (tree.isOuter? property id == some true) := fun id hid => by
    obtain ⟨found, hf, _⟩ := h.isOuter? property ((ho.attached id).mpr hid)
    cases found <;> simp [hf]
  rw [h.find?_eq ho tested]
  cases hfind : (0 :: all).find? fun id => tree.isOuter? property id == some true with
  | none =>
    refine .inl ⟨rfl, fun id hid => ?_⟩
    obtain ⟨found, hf, hiff⟩ := h.isOuter? property hid.attached
    have hno := List.find?_eq_none.mp hfind id ((ho.attached id).mp hid.attached)
    exact hno (by simp [hf, hiff.mpr hid])
  | some id =>
    refine .inr ⟨id, rfl, ?_⟩
    obtain ⟨found, hf, hiff⟩ :=
      h.isOuter? property ((ho.attached id).mpr (List.mem_of_find?_eq_some hfind))
    have hyes := List.find?_some hfind
    exact hiff.mp (by simpa [hf] using hyes)

end Finding

end Arena

end MarkupTemplate
