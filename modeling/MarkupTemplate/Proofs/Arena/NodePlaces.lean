import MarkupTemplate.Proofs.Render.FirstOuter
import MarkupTemplate.Proofs.Arena.LoopMarks
import MarkupTemplate.Proofs.Arena.TreeSearch

namespace MarkupTemplate

namespace Arena

/-- A way through the forest that an arena holds leads to a node and its children from one on. -/
inductive Leads (tree : Arena) : List Frame → Nat → List Nat → List Nat → Forest → Prop
  | document {document : ArenaNode} {forest : Forest} {all : List Nat} :
      tree.node? 0 = some document → tree.Lists 0 document.children forest all →
      (∀ id ∈ all, 0 < id) → Leads tree [] 0 [] document.children forest
  | past {way : List Frame} {parent id : Nat} {before rest : List Nat} {content : Content}
      {children next : Forest} :
      Leads tree way parent before (id :: rest) (.node content children next) →
      Leads tree (.past content children :: way) parent (before ++ [id]) rest next
  | into {way : List Frame} {parent id : Nat} {before rest : List Nat} {content : Content}
      {children next : Forest} {node : ArenaNode} :
      Leads tree way parent before (id :: rest) (.node content children next) →
      tree.node? id = some node →
      Leads tree (.into content next :: way) id [] node.children children

/-- The node is at the place. -/
def At (tree : Arena) (place : Place) (id : Nat) : Prop :=
  ∃ parent before later, Leads tree place.way parent before (id :: later)
    (.node place.content place.children place.next)

variable {tree : Arena} {way : List Frame} {parent id : Nat} {before ids all : List Nat}
  {forest : Forest} {place : Place}

theorem Leads.inside (h : tree.Linked []) (hl : Leads tree way parent before ids forest) :
    ∃ owner all, Inside tree way forest parent owner before ids all := by
  induction hl with
  | document hd hlists hpos => exact ⟨_, _, h.inside hd hlists hpos⟩
  | past _ ih =>
    obtain ⟨owner, all, hi⟩ := ih
    obtain ⟨others, hpast⟩ := hi.past
    exact ⟨owner, others, hpast⟩
  | into _ hn ih =>
    obtain ⟨owner, all, hi⟩ := ih
    obtain ⟨found, inner, hinto⟩ := hi.into
    cases hn.symm.trans hinto.owner
    exact ⟨_, inner, hinto⟩

theorem At.inside (h : tree.Linked []) (ha : tree.At place id) :
    ∃ parent owner before later all, Inside tree place.way
      (.node place.content place.children place.next) parent owner before (id :: later) all := by
  obtain ⟨parent, before, later, hl⟩ := ha
  obtain ⟨owner, all, hi⟩ := hl.inside h
  exact ⟨parent, owner, before, later, all, hi⟩

/-- A node that is below others is at a place on the way on from there. -/
theorem Leads.exists_at (hl : Leads tree way parent before ids forest)
    (hlists : tree.Lists parent ids forest all) (hid : id ∈ all) :
    ∃ place, tree.At place id ∧ place.whole = plug forest way := by
  induction hlists generalizing way before with
  | nil => cases hid
  | @cons parent first node content rest inner others children next hn _ _ _ _ ihc ihn =>
    rcases List.mem_cons.mp hid with rfl | hid
    · exact ⟨⟨way, content, children, next⟩, ⟨parent, before, rest, hl⟩, rfl⟩
    · rcases List.mem_append.mp hid with hid | hid
      · exact ihc (.into hl hn) hid
      · exact ihn (.past hl) hid

/-- Every attached node but the document is at a place. -/
theorem Attached.exists_at (h : tree.Holds forest) (ha : tree.Attached id) (hid : id ≠ 0) :
    ∃ place, tree.At place id ∧ place.whole = forest := by
  obtain ⟨all, ho⟩ := h.order
  obtain ⟨document, hd, hlists⟩ := ho.lists
  have hm := (List.mem_cons.mp ((ho.attached id).mp ha)).resolve_left hid
  exact (Leads.document hd hlists ho.pos).exists_at hlists hm

/-- Tests that agree at all places find the same. -/
theorem Leads.find {property : Place → Bool} {test : Nat → Bool}
    (hl : Leads tree way parent before ids forest) (hlists : tree.Lists parent ids forest all)
    (agree : ∀ {place : Place} {id : Nat}, tree.At place id → property place = test id) :
    (forest.findFrom? property way = none ∧ all.find? test = none) ∨
      ∃ place id, forest.findFrom? property way = some place ∧ all.find? test = some id ∧
        tree.At place id := by
  induction hlists generalizing way before with
  | nil => exact .inl ⟨rfl, rfl⟩
  | @cons parent id node content rest inner others children next hn _ _ _ _ ihc ihn =>
    have here : tree.At ⟨way, content, children, next⟩ id := ⟨parent, before, rest, hl⟩
    rw [Forest.findFrom?, agree here, List.find?_cons, List.find?_append]
    cases test id with
    | true => exact .inr ⟨_, id, rfl, rfl, here⟩
    | false =>
      rcases ihc (.into hl hn) with ⟨hf, hnone⟩ | ⟨place, k, hf, hk, hat⟩
      · simpa [hf, hnone] using ihn (.past hl)
      · exact .inr ⟨place, k, by simp [hf], by simp [hk], hat⟩

/-- The place of a node is in a loop if the node is. -/
theorem Leads.inLoop (h : tree.Linked []) (apart : tree.MarkedApart [])
    (hl : Leads tree way parent before ids forest) :
    ∀ id ∈ ids, tree.InWaitingLoop id ↔ way.any Frame.entersLoop = true := by
  -- A child is in a loop if its parent is one or is in one.
  have child {parent id : Nat} {node owner : ArenaNode} (hn : tree.node? id = some node)
      (hp : node.parent = some parent) (ho : tree.node? parent = some owner) :
      tree.InWaitingLoop id ↔ owner.isWaitingLoop = true ∨ tree.InWaitingLoop parent := by
    constructor
    · intro hw
      cases hw with
      | parent hn' hp' ho' hw =>
        cases hn.symm.trans hn'
        cases hp.symm.trans hp'
        cases ho.symm.trans ho'
        exact .inl hw
      | above hn' hp' hw =>
        cases hn.symm.trans hn'
        cases hp.symm.trans hp'
        exact .inr hw
    · rintro (hw | hw)
      · exact .parent hn hp ho hw
      · exact .above hn hp hw
  induction hl with
  | @document document forest all hd hlists hpos =>
    intro id hid
    obtain ⟨root, hroot, hc, hp⟩ := h.document
    cases hd.symm.trans hroot
    obtain ⟨_, node, hn, hnp⟩ := h.child hd id hid
    have hnone : document.isWaitingLoop = false := by
      simp [ArenaNode.isWaitingLoop, ArenaNode.isElement, ArenaNode.element?, hc]
    rw [child hn hnp hd, hnone]
    refine ⟨fun hw => ?_, fun hw => by cases hw⟩
    cases hw.resolve_left Bool.false_ne_true with
    | parent hn' hp' | above hn' hp' =>
      cases hd.symm.trans hn'
      cases hp.symm.trans hp'
  | past _ ih =>
    exact fun id hid => by simpa [Frame.entersLoop] using ih id (List.mem_cons_of_mem _ hid)
  | into hl hn ih =>
    intro id hid
    obtain ⟨owner, all, hi⟩ := hl.inside h
    cases hi.lists with
    | cons hn' hc hp _ _ =>
      cases hn.symm.trans hn'
      obtain ⟨_, below, hb, hbp⟩ := h.child hn id hid
      rw [child hb hbp hn, ih _ List.mem_cons_self, List.any_cons, Bool.or_eq_true,
        ArenaNode.isWaitingLoop, ArenaNode.isElement_of_content hc,
        apart.unmarked hn hp List.not_mem_nil]
      simp [Frame.entersLoop]

theorem At.node (h : tree.Linked []) (ha : tree.At place id) :
    ∃ node, tree.node? id = some node ∧ node.content = some place.content := by
  obtain ⟨_, _, _, _, _, hi⟩ := ha.inside h
  cases hi.lists with
  | cons hn hc => exact ⟨_, hn, hc⟩

theorem At.content {node : ArenaNode} {content : Content} (h : tree.Linked [])
    (ha : tree.At place id) (hn : tree.node? id = some node) (hc : node.content = some content) :
    place.content = content := by
  obtain ⟨same, hs, hsame⟩ := ha.node h
  cases hn.symm.trans hs
  exact Option.some.inj (hsame.symm.trans hc)

/-- A node is an outer element if its place is one. -/
theorem At.isOuter (h : tree.Linked []) (apart : tree.MarkedApart []) (ha : tree.At place id)
    (property : Element → Bool) :
    tree.isOuter? property id = some (place.isOuter property) := by
  obtain ⟨node, hn, hc⟩ := ha.node h
  have hlt := lt_of_node? hn
  obtain ⟨_, _, _, hl⟩ := ha
  obtain ⟨found, hf, hiff⟩ := h.loopAbove? hlt hlt
  rw [hl.inLoop h apart id List.mem_cons_self, ← Place.inLoop_eq] at hiff
  have same : found = place.inLoop := Bool.eq_iff_iff.mpr hiff
  rw [Arena.isOuter?, hn, Place.isOuter, ← same]
  simp only [Option.bind_eq_bind, Option.bind_some, ArenaNode.isElement_of_content hc, hf]
  cases place.content.isElement property <;> rfl

/-- A test that a node meets if its place does finds the same in the forest and in the arena. -/
theorem Holds.find?_at (hh : tree.Holds forest) (h : tree.Linked []) {property : Place → Bool}
    {test : Nat → Option Bool} (root : test 0 = some false)
    (agree : ∀ {place : Place} {id : Nat}, tree.At place id → test id = some (property place)) :
    (tree.find? test = some none ∧ forest.find? property = none) ∨
      ∃ place id, tree.find? test = some (some id) ∧ forest.find? property = some place ∧
        tree.At place id := by
  obtain ⟨all, ho⟩ := hh.order
  obtain ⟨document, hd, hlists⟩ := ho.lists
  have leads := Leads.document hd hlists ho.pos
  have tested : ∀ id ∈ 0 :: all, test id = some (test id == some true) := by
    refine List.forall_mem_cons.mpr ⟨by rw [root]; rfl, fun id hid => ?_⟩
    obtain ⟨place, hat, _⟩ := leads.exists_at hlists hid
    rw [agree hat]
    cases property place <;> rfl
  have same {place : Place} {id : Nat} (hat : tree.At place id) :
      property place = (test id == some true) := by
    rw [agree hat]
    cases property place <;> rfl
  rw [h.find?_eq ho tested, List.find?_cons, root]
  rcases leads.find hlists same with ⟨hf, hnone⟩ | ⟨place, id, hf, hid, hat⟩
  · exact .inl ⟨congrArg some hnone, hf⟩
  · exact .inr ⟨place, id, congrArg some hid, hf, hat⟩

theorem Linked.node_root (h : tree.Linked []) (property : Element → Bool) :
    ∃ document, tree.node? 0 = some document ∧ document.isElement property = false := by
  obtain ⟨document, hd, hc, _⟩ := h.document
  exact ⟨document, hd, by simp [ArenaNode.isElement, ArenaNode.element?, hc]⟩

/-- Looking for an outer element finds it in the forest and in the arena alike. -/
theorem Holds.find?_isOuter (hh : tree.Holds forest) (h : tree.Linked [])
    (apart : tree.MarkedApart []) (property : Element → Bool) :
    (tree.find? (tree.isOuter? property) = some none ∧
        forest.find? (Place.isOuter property) = none) ∨
      ∃ place id, tree.find? (tree.isOuter? property) = some (some id) ∧
        forest.find? (Place.isOuter property) = some place ∧ tree.At place id := by
  obtain ⟨document, hd, hnone⟩ := h.node_root property
  have root : tree.isOuter? property 0 = some false := by simp [Arena.isOuter?, hd, hnone]
  exact hh.find?_at h root fun hat => hat.isOuter h apart property

/-- The document is no element. -/
theorem Linked.ne_zero {node : ArenaNode} {property : Element → Bool} (h : tree.Linked [])
    (hn : tree.node? id = some node) (he : node.isElement property = true) : id ≠ 0 := by
  rintro rfl
  obtain ⟨document, hd, hnone⟩ := h.node_root property
  cases hd.symm.trans hn
  cases hnone.symm.trans he

/-- Looking for an outer element finds one at a place or misses none, also where loops are marked. -/
theorem Holds.find_outer (hh : tree.Holds forest) (h : tree.Linked [])
    (property : Element → Bool) :
    (tree.find? (tree.isOuter? property) = some none ∧ (∀ id, ¬ tree.IsOuter property id) ∧
        (tree.MarkedApart [] → forest.find? (Place.isOuter property) = none)) ∨
      ∃ place id e, tree.find? (tree.isOuter? property) = some (some id) ∧ tree.At place id ∧
        place.whole = forest ∧ place.content = .element e ∧ property e = true ∧
        (tree.MarkedApart [] → forest.find? (Place.isOuter property) = some place) := by
  rcases h.find?_isOuter property with ⟨hf, hnone⟩ | ⟨id, hf, ho⟩
  · refine .inl ⟨hf, hnone, fun apart => ?_⟩
    rcases hh.find?_isOuter h apart property with ⟨_, hforest⟩ | ⟨_, _, hf', _⟩
    · exact hforest
    · cases hf.symm.trans hf'
  · obtain ⟨node, hn, he⟩ := ho.element
    obtain ⟨e, hc, hp⟩ := ArenaNode.exists_of_isElement he
    -- The search in the forest knows no marks, so with marks only the place is the same.
    by_cases apart : tree.MarkedApart []
    · rcases hh.find?_isOuter h apart property with ⟨hf', _⟩ | ⟨place, other, hf', hforest, hat⟩
      · cases hf.symm.trans hf'
      · cases hf.symm.trans hf'
        exact .inr ⟨place, id, e, hf, hat, (Forest.whole_of_find? hforest).1,
          hat.content h hn hc, hp, fun _ => hforest⟩
    · obtain ⟨place, hat, hplace⟩ := ho.attached.exists_at hh (h.ne_zero hn he)
      exact .inr ⟨place, id, e, hf, hat, hplace, hat.content h hn hc, hp,
        fun same => absurd same apart⟩

end Arena

end MarkupTemplate
