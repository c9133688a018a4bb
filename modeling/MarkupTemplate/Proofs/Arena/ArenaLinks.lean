import MarkupTemplate.Markup.Arena

namespace MarkupTemplate

/-- A node may have children: the document, or an element with an end tag. -/
def ArenaNode.takesChildren (node : ArenaNode) : Bool :=
  node.content.all Content.showsChildren

namespace Arena

variable {tree after : Arena} {id k parent owner : Nat} {node : ArenaNode}
  {change : ArenaNode → ArenaNode}

theorem lt_of_node? (h : tree.node? id = some node) : id < tree.size :=
  (Array.getElem?_eq_some_iff.mp h).1

/-- If there is room for a node, there is room one level deeper for all nodes after it. -/
theorem exists_deeper {depth : Nat} (hn : tree.node? id = some node)
    (hdepth : tree.size ≤ id + depth) :
    ∃ deeper, depth = deeper + 1 ∧ ∀ k, id < k → tree.size ≤ k + deeper := by
  have hlt := lt_of_node? hn
  exact ⟨depth - 1, by omega, fun k hk => by omega⟩

theorem node?_of_lt (h : id < tree.size) : ∃ node, tree.node? id = some node :=
  ⟨_, Array.getElem?_eq_getElem h⟩

theorem node?_push (tree : Arena) (node : ArenaNode) (k : Nat) :
    (tree.push node).node? k = if k = tree.size then some node else tree.node? k :=
  Array.getElem?_push

@[simp] theorem size_push (tree : Arena) (node : ArenaNode) :
    (tree.push node).size = tree.size + 1 :=
  Array.size_push ..

theorem size_lt_of_push (h : (tree.push node).size ≤ k) : tree.size < k := by
  rwa [size_push] at h

theorem node?_push_of_lt (h : k < tree.size) (node : ArenaNode) :
    (tree.push node).node? k = tree.node? k := by
  rw [node?_push, if_neg (Nat.ne_of_lt h)]

/-- The second arena is the first one with a node changed. -/
structure Updated (tree after : Arena) (id : Nat) (change : ArenaNode → ArenaNode) : Prop where
  size : after.size = tree.size
  node (k : Nat) : after.node? k = if id = k then (tree.node? k).map change else tree.node? k

theorem updated_of_update? (h : tree.update? id change = some after) :
    Updated tree after id change := by
  unfold update? at h
  split at h
  next =>
    cases h
    exact ⟨Array.size_modify .., fun k => Array.getElem?_modify⟩
  next => cases h

/-- A node that there is can be changed. -/
theorem update?_of_node? (h : tree.node? id = some node) (change : ArenaNode → ArenaNode) :
    ∃ after, tree.update? id change = some after ∧ Updated tree after id change := by
  have he : tree.update? id change = some { tree with nodes := tree.nodes.modify id change } :=
    if_pos (lt_of_node? h)
  exact ⟨_, he, updated_of_update? he⟩

theorem node?_of_update? (h : tree.update? id change = some after) :
    ∃ node, tree.node? id = some node := by
  unfold update? at h
  split at h
  next hid => exact node?_of_lt hid
  next => cases h

namespace Updated

variable (h : Updated tree after id change)

include h

theorem self (hn : tree.node? id = some node) : after.node? id = some (change node) := by
  rw [h.node, if_pos rfl, hn]
  rfl

theorem other (hk : id ≠ k) : after.node? k = tree.node? k := by
  rw [h.node, if_neg hk]

/-- A node after the change comes from one before it. -/
theorem source (hn : after.node? k = some node) :
    (∃ before, k = id ∧ tree.node? id = some before ∧ node = change before) ∨
      (k ≠ id ∧ tree.node? k = some node) := by
  rw [h.node] at hn
  split at hn
  next he =>
    obtain ⟨before, hb, rfl⟩ := Option.map_eq_some_iff.mp hn
    exact .inl ⟨before, he.symm, he ▸ hb, rfl⟩
  next he => exact .inr ⟨Ne.symm he, hn⟩

end Updated

/-- The links of an arena in which some nodes are loose. -/
structure Linked (tree : Arena) (loose : List Nat) : Prop where
  child {owner : Nat} {node : ArenaNode} : tree.node? owner = some node → ∀ id ∈ node.children,
    owner < id ∧ ∃ child, tree.node? id = some child ∧ child.parent = some owner
  nodup {owner : Nat} {node : ArenaNode} : tree.node? owner = some node → node.children.Nodup
  listed {id parent : Nat} {node : ArenaNode} : tree.node? id = some node →
    node.parent = some parent → id ∉ loose →
    ∃ owner, tree.node? parent = some owner ∧ id ∈ owner.children
  loose_lt {id : Nat} : id ∈ loose → id < tree.size
  loose_notMem {id owner : Nat} {node : ArenaNode} : id ∈ loose → tree.node? owner = some node →
    id ∉ node.children
  document : ∃ node, tree.node? 0 = some node ∧ node.content = none ∧ node.parent = none
  only {id : Nat} {node : ArenaNode} : tree.node? id = some node → node.content = none → id = 0
  leaf {id : Nat} {node : ArenaNode} : tree.node? id = some node → node.takesChildren = false →
    node.children = []

namespace Linked

variable {loose loose' : List Nat}

/-- A node is named by its parent only. -/
theorem owner_unique (h : tree.Linked loose) {other : Nat} {another : ArenaNode}
    (hn : tree.node? owner = some node) (hid : id ∈ node.children)
    (ho : tree.node? other = some another) (hid' : id ∈ another.children) : other = owner := by
  obtain ⟨_, child, hc, hp⟩ := h.child hn id hid
  obtain ⟨_, child', hc', hp'⟩ := h.child ho id hid'
  cases hc.symm.trans hc'
  exact Option.some.inj (hp'.symm.trans hp)

/-- Which nodes count as loose, but not in which order. -/
theorem congr (h : tree.Linked loose) (hl : ∀ id, id ∈ loose' ↔ id ∈ loose) :
    tree.Linked loose' where
  child := h.child
  nodup := h.nodup
  listed hn hp hid := h.listed hn hp fun hm => hid ((hl _).mpr hm)
  loose_lt hid := h.loose_lt ((hl _).mp hid)
  loose_notMem hid := h.loose_notMem ((hl _).mp hid)
  document := h.document
  only := h.only
  leaf := h.leaf

/-- A new node is loose. -/
theorem push (h : tree.Linked loose) (content : Content) (looped : Bool) (parent : Nat) :
    (tree.push ⟨some content, looped, some parent, []⟩).Linked (tree.size :: loose) := by
  have old {k : Nat} {node : ArenaNode} (hn : tree.node? k = some node) :
      (tree.push ⟨some content, looped, some parent, []⟩).node? k = some node := by
    rw [node?_push_of_lt (lt_of_node? hn), hn]
  have new {k : Nat} {node : ArenaNode}
      (hn : (tree.push ⟨some content, looped, some parent, []⟩).node? k = some node) :
      k = tree.size ∧ node = ⟨some content, looped, some parent, []⟩ ∨
        tree.node? k = some node := by
    rw [node?_push] at hn
    split at hn
    next hk => exact .inl ⟨hk, (Option.some.inj hn).symm⟩
    next => exact .inr hn
  constructor
  case child =>
    intro owner node hn id hid
    rcases new hn with ⟨_, rfl⟩ | hn
    · cases hid
    · obtain ⟨hlt, child, hc, hp⟩ := h.child hn id hid
      exact ⟨hlt, child, old hc, hp⟩
  case nodup =>
    intro owner node hn
    rcases new hn with ⟨_, rfl⟩ | hn
    · exact List.nodup_nil
    · exact h.nodup hn
  case listed =>
    intro id parent node hn hp hid
    obtain ⟨hne, hid⟩ := not_or.mp (mt List.mem_cons.mpr hid)
    rcases new hn with ⟨he, _⟩ | hn
    · exact absurd he hne
    · obtain ⟨owner, ho, hm⟩ := h.listed hn hp hid
      exact ⟨owner, old ho, hm⟩
  case loose_lt =>
    intro id hid
    rw [size_push]
    rcases List.mem_cons.mp hid with rfl | hid
    · exact Nat.lt_succ_self _
    · exact Nat.lt_succ_of_lt (h.loose_lt hid)
  case loose_notMem =>
    intro id owner node hid hn
    rcases new hn with ⟨_, rfl⟩ | hn
    · exact List.not_mem_nil
    · rcases List.mem_cons.mp hid with rfl | hid
      · intro hm
        obtain ⟨_, child, hc, _⟩ := h.child hn _ hm
        exact absurd (lt_of_node? hc) (Nat.lt_irrefl _)
      · exact h.loose_notMem hid hn
  case document =>
    obtain ⟨node, hn, hd⟩ := h.document
    exact ⟨node, old hn, hd⟩
  case only =>
    intro id node hn hc
    rcases new hn with ⟨_, rfl⟩ | hn
    · cases hc
    · exact h.only hn hc
  case leaf =>
    intro id node hn hl
    rcases new hn with ⟨_, rfl⟩ | hn
    · rfl
    · exact h.leaf hn hl

/-- Other children for a node. All of them must name it as their parent, and the loose nodes are
those that this leaves. -/
theorem updateChildren (h : tree.Linked loose) (children : List Nat → List Nat)
    (hn : tree.node? parent = some node)
    (hu : Updated tree after parent fun node => { node with children := children node.children })
    (child : ∀ id ∈ children node.children,
      parent < id ∧ ∃ child, tree.node? id = some child ∧ child.parent = some parent)
    (nodup : (children node.children).Nodup)
    (leaf : node.takesChildren = false → children node.children = [])
    (hloose : ∀ id, id ∈ loose' ↔
      (id ∈ loose ∨ id ∈ node.children) ∧ id ∉ children node.children) :
    after.Linked loose' := by
  have kept {k : Nat} {found : ArenaNode} (hk : tree.node? k = some found) :
      ∃ same, after.node? k = some same ∧ same.content = found.content ∧
        same.parent = found.parent := by
    by_cases he : parent = k
    · subst he
      exact ⟨_, hu.self hk, rfl, rfl⟩
    · exact ⟨found, (hu.other he).trans hk, rfl, rfl⟩
  constructor
  case child =>
    intro owner found hf id hid
    have old : owner < id ∧ ∃ child, tree.node? id = some child ∧ child.parent = some owner := by
      rcases hu.source hf with ⟨before, rfl, hb, rfl⟩ | ⟨_, hf⟩
      · cases hn.symm.trans hb
        exact child id hid
      · exact h.child hf id hid
    obtain ⟨hlt, below, hb, hp⟩ := old
    obtain ⟨same, hs, _, hsp⟩ := kept hb
    exact ⟨hlt, same, hs, hsp.trans hp⟩
  case nodup =>
    intro owner found hf
    rcases hu.source hf with ⟨before, rfl, hb, rfl⟩ | ⟨_, hf⟩
    · cases hn.symm.trans hb
      exact nodup
    · exact h.nodup hf
  case listed =>
    intro id above found hf hp hid
    obtain ⟨before, hb, hbp⟩ : ∃ before, tree.node? id = some before ∧
        before.parent = some above := by
      rcases hu.source hf with ⟨before, rfl, hb, rfl⟩ | ⟨_, hf⟩
      · exact ⟨before, hb, hp⟩
      · exact ⟨found, hf, hp⟩
    by_cases hnew : id ∈ children node.children
    · obtain ⟨_, below, hbelow, habove⟩ := child id hnew
      cases hb.symm.trans hbelow
      cases hbp.symm.trans habove
      exact ⟨_, hu.self hn, hnew⟩
    · have hold : ¬ (id ∈ loose ∨ id ∈ node.children) := fun ho => hid ((hloose id).mpr ⟨ho, hnew⟩)
      obtain ⟨hnl, hnc⟩ := not_or.mp hold
      obtain ⟨owner, ho, hm⟩ := h.listed hb hbp hnl
      by_cases he : parent = above
      · subst he
        cases hn.symm.trans ho
        exact absurd hm hnc
      · exact ⟨owner, (hu.other he).trans ho, hm⟩
  case loose_lt =>
    intro id hid
    rw [hu.size]
    rcases ((hloose id).mp hid).1 with hl | hc
    · exact h.loose_lt hl
    · obtain ⟨_, below, hb, _⟩ := h.child hn id hc
      exact lt_of_node? hb
  case loose_notMem =>
    intro id owner found hid hf hm
    obtain ⟨hold, hnew⟩ := (hloose id).mp hid
    rcases hu.source hf with ⟨before, rfl, hb, rfl⟩ | ⟨hne, hf⟩
    · cases hn.symm.trans hb
      exact hnew hm
    · rcases hold with hl | hc
      · exact h.loose_notMem hl hf hm
      · exact hne (h.owner_unique hn hc hf hm)
  case document =>
    obtain ⟨root, hr, hc, hp⟩ := h.document
    obtain ⟨same, hs, hsc, hsp⟩ := kept hr
    exact ⟨same, hs, hsc.trans hc, hsp.trans hp⟩
  case only =>
    intro id found hf hc
    rcases hu.source hf with ⟨before, rfl, hb, rfl⟩ | ⟨_, hf⟩
    · exact h.only hb hc
    · exact h.only hf hc
  case leaf =>
    intro id found hf hl
    rcases hu.source hf with ⟨before, rfl, hb, rfl⟩ | ⟨_, hf⟩
    · cases hn.symm.trans hb
      exact leaf hl
    · exact h.leaf hf hl

/-- Another mark or parent for a node. The parent may go if no node names the node, and it is not
loose any more then. -/
theorem relabel (h : tree.Linked loose) (hn : tree.node? id = some node)
    (hu : Updated tree after id change) (content : (change node).content = node.content)
    (children : (change node).children = node.children)
    (parent : (change node).parent = node.parent ∨ (change node).parent = none ∧ id ∈ loose)
    (hloose : ∀ k ∈ loose', k ∈ loose)
    (hgone : ∀ k ∈ loose, k ∉ loose' → k = id ∧ (change node).parent = none) :
    after.Linked loose' := by
  have back {k : Nat} {found : ArenaNode} (hf : after.node? k = some found) :
      ∃ before, tree.node? k = some before ∧ found.content = before.content ∧
        found.children = before.children ∧
        (found.parent = before.parent ∨ k = id ∧ found.parent = none ∧ id ∈ loose) := by
    rcases hu.source hf with ⟨before, rfl, hb, rfl⟩ | ⟨_, hf⟩
    · cases hn.symm.trans hb
      exact ⟨node, hn, content, children, parent.imp_right fun hp => ⟨rfl, hp⟩⟩
    · exact ⟨found, hf, rfl, rfl, .inl rfl⟩
  have forth {k : Nat} {found : ArenaNode} (hf : tree.node? k = some found) :
      ∃ same, after.node? k = some same ∧ same.content = found.content ∧
        same.children = found.children ∧ (k ∉ loose → same.parent = found.parent) := by
    by_cases he : id = k
    · subst he
      cases hn.symm.trans hf
      refine ⟨_, hu.self hn, content, children, fun hk => ?_⟩
      rcases parent with hp | ⟨_, hk'⟩
      · exact hp
      · exact absurd hk' hk
    · exact ⟨found, (hu.other he).trans hf, rfl, rfl, fun _ => rfl⟩
  constructor
  case child =>
    intro owner found hf k hk
    obtain ⟨before, hb, _, hc, _⟩ := back hf
    obtain ⟨hlt, below, hbelow, hp⟩ := h.child hb k (hc ▸ hk)
    obtain ⟨same, hs, _, _, hsp⟩ := forth hbelow
    have tight : k ∉ loose := fun hl => h.loose_notMem hl hb (hc ▸ hk)
    exact ⟨hlt, same, hs, (hsp tight).trans hp⟩
  case nodup =>
    intro owner found hf
    obtain ⟨before, hb, _, hc, _⟩ := back hf
    exact hc ▸ h.nodup hb
  case listed =>
    intro k above found hf hp hk
    obtain ⟨before, hb, _, _, hbp⟩ := back hf
    have tight : k ∉ loose := fun hl => by
      obtain ⟨rfl, hnone⟩ := hgone k hl hk
      rw [hu.self hn] at hf
      cases Option.some.inj hf
      rw [hnone] at hp
      cases hp
    have hold : before.parent = some above := by
      rcases hbp with he | ⟨_, hnone, _⟩
      · exact he.symm.trans hp
      · rw [hnone] at hp
        cases hp
    obtain ⟨owner, ho, hm⟩ := h.listed hb hold tight
    obtain ⟨same, hs, _, hc, _⟩ := forth ho
    exact ⟨same, hs, hc ▸ hm⟩
  case loose_lt =>
    intro k hk
    rw [hu.size]
    exact h.loose_lt (hloose k hk)
  case loose_notMem =>
    intro k owner found hk hf
    obtain ⟨before, hb, _, hc, _⟩ := back hf
    exact hc ▸ h.loose_notMem (hloose k hk) hb
  case document =>
    obtain ⟨root, hr, hc, hp⟩ := h.document
    obtain ⟨same, hs, hsc, _, hsp⟩ := forth hr
    refine ⟨same, hs, hsc.trans hc, ?_⟩
    obtain ⟨before, hb, _, _, hbp⟩ := back hs
    cases hr.symm.trans hb
    rcases hbp with he | ⟨_, hnone, _⟩
    · exact he.trans hp
    · exact hnone
  case only =>
    intro k found hf hc
    obtain ⟨before, hb, hbc, _⟩ := back hf
    exact h.only hb (hbc ▸ hc)
  case leaf =>
    intro k found hf hl
    obtain ⟨before, hb, hbc, hc, _⟩ := back hf
    rw [hc]
    refine h.leaf hb ?_
    rwa [ArenaNode.takesChildren, hbc] at hl

/-- Putting loose nodes among the children of the node that they name as their parent. -/
theorem splice (ids first last : List Nat) (h : tree.Linked (ids ++ loose))
    (hn : tree.node? parent = some node) (hsplit : node.children = first ++ last)
    (hu : Updated tree after parent fun node => { node with children := first ++ ids ++ last })
    (hids : ∀ id ∈ ids, parent < id ∧
      ∃ child, tree.node? id = some child ∧ child.parent = some parent)
    (nodup : ids.Nodup) (apart : ∀ id ∈ ids, id ∉ loose)
    (takes : ids = [] ∨ node.takesChildren = true) : after.Linked loose := by
  have named {id : Nat} (hid : id ∈ ids) : id ∉ node.children :=
    h.loose_notMem (List.mem_append_left _ hid) hn
  have member {id : Nat} : id ∈ first ++ ids ++ last ↔ id ∈ ids ∨ id ∈ node.children := by
    simp only [hsplit, List.mem_append]
    exact ⟨by rintro ((h | h) | h) <;> simp [h], by rintro (h | h | h) <;> simp [h]⟩
  refine h.updateChildren (fun _ => first ++ ids ++ last) hn hu ?_ ?_ ?_ ?_
  · intro id hid
    exact (member.mp hid).elim (hids id) (h.child hn id)
  · have sorted : (ids ++ (first ++ last)).Nodup := by
      refine List.nodup_append.mpr ⟨nodup, hsplit ▸ h.nodup hn, fun a ha b hb hab => ?_⟩
      exact named ha (hsplit ▸ hab ▸ hb)
    rw [List.append_assoc]
    exact (List.perm_append_comm_assoc first ids last).nodup_iff.mpr sorted
  · intro hl
    rcases takes with rfl | ht
    · rw [List.append_nil, ← hsplit]
      exact h.leaf hn hl
    · rw [ht] at hl
      cases hl
  · intro id
    rw [member]
    constructor
    · intro hid
      refine ⟨.inl (List.mem_append_right _ hid), ?_⟩
      rintro (hm | hm)
      · exact apart id hm hid
      · exact h.loose_notMem (List.mem_append_right _ hid) hn hm
    · rintro ⟨hid | hid, hnew⟩
      · exact (List.mem_append.mp hid).resolve_left fun hm => hnew (.inl hm)
      · exact absurd (.inr hid) hnew

/-- A loose node as the last child of the node that it names as its parent. -/
theorem addChild (h : tree.Linked (id :: loose)) (hn : tree.node? parent = some node)
    (hu : Updated tree after parent fun node => { node with children := node.children ++ [id] })
    (hid : parent < id ∧ ∃ child, tree.node? id = some child ∧ child.parent = some parent)
    (apart : id ∉ loose) (takes : node.takesChildren = true) : after.Linked loose := by
  refine splice [id] node.children [] h hn (by simp) ?_
    (by simpa using hid) (by simp) (by simpa using apart) (.inr takes)
  refine ⟨hu.size, fun k => ?_⟩
  rw [hu.node]
  split
  next he =>
    rw [← he, hn]
    simp
  next => rfl

/-- A child that is taken from its parent is loose. -/
theorem removeChild {index : Nat} (h : tree.Linked loose) (hn : tree.node? parent = some node)
    (hid : node.children.idxOf? id = some index)
    (hu : Updated tree after parent fun node =>
      { node with children := node.children.eraseIdx index }) :
    after.Linked (id :: loose) := by
  have erased : node.children.eraseIdx index = node.children.erase id := by
    rw [List.erase_eq_eraseIdx, hid]
  have named : id ∈ node.children := by
    refine Decidable.by_contra fun hm => ?_
    rw [List.idxOf?_eq_none_iff.mpr hm] at hid
    cases hid
  have member {k : Nat} : k ∈ node.children.eraseIdx index ↔ k ≠ id ∧ k ∈ node.children := by
    rw [erased, (h.nodup hn).mem_erase_iff]
  refine h.updateChildren (·.eraseIdx index) hn hu ?_ ?_ ?_ ?_
  · intro k hk
    exact h.child hn k (member.mp hk).2
  · rw [erased]
    exact (h.nodup hn).erase id
  · intro hl
    rw [h.leaf hn hl]
    rfl
  · intro k
    rw [member, List.mem_cons]
    constructor
    · rintro (rfl | hk)
      · exact ⟨.inr named, fun hm => hm.1 rfl⟩
      · exact ⟨.inl hk, fun hm => h.loose_notMem hk hn hm.2⟩
    · rintro ⟨hk | hk, hne⟩
      · exact .inr hk
      · exact .inl (Decidable.by_contra fun he => hne ⟨he, hk⟩)

/-- Children that are taken from their parent at once are loose. -/
theorem removeChildren (h : tree.Linked loose) (hn : tree.node? parent = some node)
    (hu : Updated tree after parent fun node => { node with children := [] }) :
    after.Linked (node.children ++ loose) := by
  refine h.updateChildren (fun _ => []) hn hu (by simp) (by simp) (by simp) fun k => ?_
  rw [List.mem_append]
  exact ⟨fun hk => ⟨hk.symm, List.not_mem_nil⟩, fun hk => hk.1.symm⟩

/-- A loose node without a parent is not loose any more. -/
theorem orphan (h : tree.Linked (id :: loose))
    (hu : Updated tree after id fun node => { node with parent := none }) :
    after.Linked loose := by
  obtain ⟨node, hn⟩ := node?_of_lt (h.loose_lt List.mem_cons_self)
  refine h.relabel hn hu rfl rfl (.inr ⟨rfl, List.mem_cons_self⟩)
    (fun k hk => List.mem_cons_of_mem id hk) fun k hk hgone => ⟨?_, rfl⟩
  exact (List.mem_cons.mp hk).resolve_right hgone

end Linked

end Arena

end MarkupTemplate
