import MarkupTemplate.Proofs.Arena.RunReplacement

namespace MarkupTemplate

namespace Arena

/-- Of the nodes that name a parent only these can be marked. -/
structure MarkedApart (tree : Arena) (exempt : List Nat) : Prop where
  unmarked {id parent : Nat} {node : ArenaNode} : tree.node? id = some node →
    node.parent = some parent → id ∉ exempt → node.looped = false

variable {source tree middle after fragment : Arena} {id parent depth : Nat}
  {exempt ids run new outer : List Nat} {node : ArenaNode} {change : ArenaNode → ArenaNode}

namespace MarkedApart

theorem weaken (h : tree.MarkedApart []) (exempt : List Nat) : tree.MarkedApart exempt :=
  ⟨fun hn hp _ => h.unmarked hn hp List.not_mem_nil⟩

theorem empty : MarkedApart {} [] := by
  refine ⟨fun {id parent node} hn hp _ => ?_⟩
  obtain ⟨_, he⟩ := Array.getElem?_eq_some_iff.mp hn
  cases id with
  | zero =>
    rw [← he] at hp
    cases hp
  | succ id => cases hn

theorem push (h : tree.MarkedApart exempt) (hnode : node.looped = false) :
    (tree.push node).MarkedApart exempt := by
  refine ⟨fun hn hp hid => ?_⟩
  rw [node?_push] at hn
  split at hn
  next =>
    cases hn
    exact hnode
  next => exact h.unmarked hn hp hid

/-- A change that leaves the mark, and gives no new parent. -/
theorem updated (h : tree.MarkedApart exempt) (hu : Updated tree after id change)
    (looped : ∀ node, (change node).looped = node.looped)
    (parent : ∀ node, (change node).parent = node.parent ∨ (change node).parent = none) :
    after.MarkedApart exempt := by
  refine ⟨fun hn hp hk => ?_⟩
  rcases hu.source hn with ⟨before, rfl, hb, rfl⟩ | ⟨_, hn⟩
  · rw [looped]
    rcases parent before with hsame | hnone
    · exact h.unmarked hb (hsame.symm.trans hp) hk
    · rw [hnone] at hp
      cases hp
  · exact h.unmarked hn hp hk

theorem updateChildren? {children : List Nat → List Nat} (h : tree.MarkedApart exempt)
    (ha : tree.updateChildren? id children = some after) : after.MarkedApart exempt :=
  h.updated (updated_of_update? ha) (fun _ => rfl) fun _ => .inl rfl

theorem orphans (h : tree.MarkedApart exempt) (ha : ids.foldlM orphan? tree = some after) :
    after.MarkedApart exempt := by
  induction ids generalizing tree with
  | nil =>
    cases ha
    exact h
  | cons id rest ih =>
    rw [List.foldlM_cons] at ha
    obtain ⟨middle, hm, ha⟩ := Option.bind_eq_some_iff.mp ha
    exact ih (h.updated (updated_of_update? hm) (fun _ => rfl) fun _ => .inr rfl) ha

/-- Nodes that are taken out may have been marked. -/
theorem detached (h : tree.MarkedApart run) (hd : Detached tree after run) :
    after.MarkedApart [] := by
  refine ⟨fun {k above found} hn hp _ => ?_⟩
  rw [hd.node] at hn
  obtain ⟨before, hb, rfl⟩ := Option.map_eq_some_iff.mp hn
  by_cases hk : k ∈ run
  · simp only [hk, if_true] at hp
    cases hp
  · simp only [hk, if_false] at hp
    have looped := h.unmarked hb hp hk
    exact looped

end MarkedApart

/-- Copying a node that is not marked brings in no marks. -/
structure CopiesUnmarked (source : Arena) (depth : Nat) : Prop where
  graft {origin parent copy : Nat} {original : ArenaNode} {exempt : List Nat} {tree after : Arena} :
    source.node? origin = some original → original.looped = false → tree.MarkedApart exempt →
    graft? source depth origin parent tree = some (copy, after) → after.MarkedApart exempt

/-- The children of a node have marks only if they name no parent. -/
theorem Linked.unmarked_child (h : source.Linked outer) (apart : source.MarkedApart [])
    (hn : source.node? id = some node) :
    ∀ child ∈ node.children, ∃ below, source.node? child = some below ∧ below.looped = false :=
  fun child hm => by
    obtain ⟨_, below, hb, hp⟩ := h.child hn child hm
    exact ⟨below, hb, apart.unmarked hb hp List.not_mem_nil⟩

theorem CopiesUnmarked.adopt (hc : source.CopiesUnmarked depth)
    (hids : ∀ id ∈ ids, ∃ node, source.node? id = some node ∧ node.looped = false)
    (h : tree.MarkedApart exempt) (ha : adopt? source depth parent ids tree = some after) :
    after.MarkedApart exempt := by
  induction ids generalizing tree with
  | nil =>
    cases ha
    exact h
  | cons id rest ih =>
    obtain ⟨⟨node, hn, hl⟩, hrest⟩ := List.forall_mem_cons.mp hids
    rw [adopt?_cons] at ha
    obtain ⟨⟨copy, middle⟩, hg, ha⟩ := Option.bind_eq_some_iff.mp ha
    obtain ⟨named, hnamed, ha⟩ := Option.bind_eq_some_iff.mp ha
    exact ih hrest ((hc.graft hn hl h hg).updateChildren? hnamed) ha

theorem Linked.copiesUnmarked (h : source.Linked outer) (apart : source.MarkedApart [])
    (depth : Nat) : source.CopiesUnmarked depth := by
  induction depth with
  | zero => exact ⟨fun _ _ _ hg => by cases hg⟩
  | succ depth ih =>
    refine ⟨fun hn hl ht hg => ?_⟩
    rw [graft?_succ, hn, Option.bind_some] at hg
    obtain ⟨last, ha, he⟩ := Option.map_eq_some_iff.mp hg
    obtain ⟨_, rfl⟩ := Prod.mk.inj he
    refine ih.adopt (h.unmarked_child apart hn) (ht.push ?_) ha
    exact hl

theorem CopiesUnmarked.graftAll (hc : source.CopiesUnmarked depth)
    (hids : ∀ id ∈ ids, ∃ node, source.node? id = some node ∧ node.looped = false)
    (h : tree.MarkedApart exempt)
    (hg : graftAll? source depth parent ids tree = some (new, after)) :
    after.MarkedApart exempt := by
  induction ids generalizing tree new with
  | nil =>
    cases hg
    exact h
  | cons id rest ih =>
    obtain ⟨⟨node, hn, hl⟩, hrest⟩ := List.forall_mem_cons.mp hids
    obtain ⟨⟨copy, middle⟩, hfirst, hg⟩ := Option.bind_eq_some_iff.mp hg
    obtain ⟨⟨others, last⟩, hothers, hg⟩ := Option.bind_eq_some_iff.mp hg
    cases hg
    exact ih hrest (hc.graft hn hl h hfirst) hothers

section Fragments

variable (hf : fragment.Linked []) (apart : fragment.MarkedApart [])

include hf apart

theorem MarkedApart.graftTop? (h : tree.MarkedApart exempt)
    (hg : graftTop? fragment parent tree = some (new, after)) : after.MarkedApart exempt := by
  obtain ⟨top, htop, hg⟩ := Option.bind_eq_some_iff.mp hg
  exact (hf.copiesUnmarked apart _).graftAll (hf.unmarked_child apart htop) h hg

/-- The nodes that are replaced may have been marked. -/
theorem MarkedApart.replaceRun? {first : Nat} {owner : ArenaNode} {rest : List Nat}
    (h : tree.MarkedApart (first :: rest)) (ht : tree.Linked [])
    (ho : tree.node? parent = some owner) (hm : first ∈ owner.children)
    (ha : tree.replaceRun? (first :: rest) fragment = some after) : after.MarkedApart [] := by
  obtain ⟨_, node, hn, hp⟩ := ht.child ho first hm
  obtain ⟨index, hi⟩ := idxOf?_of_mem hm
  have position : tree.indexInParent? first = some (some (parent, index)) := by
    rw [indexInParent?_child hn hp ho, hi]
    rfl
  rw [replaceRun?_cons position] at ha
  obtain ⟨middle, hmiddle, ha⟩ := Option.bind_eq_some_iff.mp ha
  obtain ⟨⟨new, next⟩, hgraft, ha⟩ := Option.bind_eq_some_iff.mp ha
  obtain ⟨same, _, ha⟩ := Option.bind_eq_some_iff.mp ha
  obtain ⟨detached, hs, hd⟩ := ht.detachAll (node?_of_detachAll? hmiddle ht)
  cases hmiddle.symm.trans hs
  have grafted := MarkedApart.graftTop? hf apart (h.detached hd) hgraft
  split at ha
  next => exact grafted.updateChildren? ha
  next => cases ha

theorem MarkedApart.replaceDocument? (h : tree.MarkedApart [])
    (ha : tree.replaceDocument? fragment = some after) : after.MarkedApart [] := by
  obtain ⟨document, _, ha⟩ := Option.bind_eq_some_iff.mp ha
  obtain ⟨emptied, hemptied, ha⟩ := Option.bind_eq_some_iff.mp ha
  obtain ⟨middle, hmiddle, ha⟩ := Option.bind_eq_some_iff.mp ha
  obtain ⟨⟨new, next⟩, hgraft, ha⟩ := Option.bind_eq_some_iff.mp ha
  exact (MarkedApart.graftTop? hf apart ((h.updateChildren? hemptied).orphans hmiddle)
    hgraft).updateChildren? ha

theorem MarkedApart.appendFragment? (h : tree.MarkedApart [])
    (ha : tree.appendFragment? fragment = some after) : after.MarkedApart [] := by
  obtain ⟨top, htop, ha⟩ := Option.bind_eq_some_iff.mp ha
  exact (hf.copiesUnmarked apart _).adopt (hf.unmarked_child apart htop) h ha

theorem MarkedApart.childrenFragment? (ha : fragment.childrenFragment? id = some after) :
    after.MarkedApart [] := by
  obtain ⟨node, hn, ha⟩ := Option.bind_eq_some_iff.mp ha
  exact (hf.copiesUnmarked apart _).adopt (hf.unmarked_child apart hn) .empty ha

end Fragments

/-- The node that is marked is the only one that can be marked then. -/
theorem MarkedApart.markLooped? (h : tree.MarkedApart [])
    (ha : tree.markLooped? id = some after) : after.MarkedApart [id] := by
  have hu := updated_of_update? ha
  refine ⟨fun hn hp hk => ?_⟩
  rcases hu.source hn with ⟨_, rfl, _, _⟩ | ⟨_, hn⟩
  · exact absurd List.mem_cons_self hk
  · exact h.unmarked hn hp List.not_mem_nil

theorem MarkedApart.warn (h : tree.MarkedApart exempt) (warning : Warning) :
    (tree.warn warning).MarkedApart exempt :=
  ⟨h.unmarked⟩

namespace Unfinished

variable {unfinished last : Unfinished}

theorem markedApart_add? (h : unfinished.tree.MarkedApart []) {content : Content}
    (ha : unfinished.add? content = some last) : last.tree.MarkedApart [] := by
  obtain ⟨tree, ht, rfl⟩ := Option.map_eq_some_iff.mp ha
  exact (h.push rfl).updateChildren? ht

theorem markedApart_step? (h : unfinished.tree.MarkedApart []) {token : Token}
    (ha : unfinished.step? token = some last) : last.tree.MarkedApart [] := by
  cases token with
  | text | comment | declaration => exact markedApart_add? h ha
  | opening name attributes selfClosing =>
    obtain ⟨added, hadd, rfl⟩ := Option.map_eq_some_iff.mp ha
    have unmarked := markedApart_add? h hadd
    rw [apply_ite Unfinished.tree, ite_self]
    exact unmarked
  | closing name =>
    rw [step?] at ha
    split at ha
    next =>
      cases ha
      exact h.warn _
    next =>
      cases ha
      dsimp only
      split
      next => exact h.warn _
      next => exact h

end Unfinished

/-- Reading a text marks nothing. -/
theorem markedApart_read? {text : Text} (h : read? text = some tree) : tree.MarkedApart [] := by
  obtain ⟨last, hlast, rfl⟩ := Option.map_eq_some_iff.mp h
  have steps : ∀ (tokens : List Token) {unfinished : Unfinished},
      unfinished.tree.MarkedApart [] → tokens.foldlM Unfinished.step? unfinished = some last →
      last.tree.MarkedApart [] := by
    intro tokens
    induction tokens with
    | nil =>
      intro unfinished hu hl
      cases hl
      exact hu
    | cons token rest ih =>
      intro unfinished hu hl
      rw [List.foldlM_cons] at hl
      obtain ⟨middle, hm, hl⟩ := Option.bind_eq_some_iff.mp hl
      exact ih (Unfinished.markedApart_step? hu hm) hl
  have unmarked := steps (tokens text) .empty hlast
  unfold Unfinished.finish
  split
  next => exact unmarked
  next => exact unmarked.warn _

end Arena

end MarkupTemplate
