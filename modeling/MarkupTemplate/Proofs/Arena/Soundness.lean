import MarkupTemplate.Proofs.Arena.Editing

namespace MarkupTemplate

namespace Arena

variable {tree after fragment : Arena} {id : Nat}

/-- Warnings are no links. -/
theorem Linked.withWarnings {loose : List Nat} (h : tree.Linked loose) (warnings : List Warning) :
    ({ tree with warnings } : Arena).Linked loose :=
  ⟨h.child, h.nodup, h.listed, h.loose_lt, h.loose_notMem, h.document, h.only, h.leaf⟩

namespace Unfinished

/-- While a text is read the links are kept, and the elements that are open may have children. -/
structure Linked (unfinished : Unfinished) : Prop where
  tree : unfinished.tree.Linked []
  opened : ∀ id ∈ unfinished.opened,
    ∃ node, unfinished.tree.node? id = some node ∧ node.takesChildren = true

variable {unfinished : Unfinished}

/-- The node that takes the next ones may have children. -/
theorem Linked.current (h : unfinished.Linked) :
    ∃ node, unfinished.tree.node? unfinished.current = some node ∧ node.takesChildren = true := by
  unfold Unfinished.current
  cases ho : unfinished.opened with
  | nil =>
    obtain ⟨document, hd, hc, _⟩ := h.tree.document
    exact ⟨document, hd, by rw [ArenaNode.takesChildren, hc]; rfl⟩
  | cons id outer => exact h.opened id (ho ▸ List.mem_cons_self)

/-- The node that is added has the next number. -/
theorem Linked.add (h : unfinished.Linked) (content : Content) :
    ∃ after, unfinished.add? content = some after ∧ after.Linked ∧
      after.opened = unfinished.opened ∧
      after.tree.node? unfinished.tree.size =
        some ⟨some content, false, some unfinished.current, []⟩ := by
  obtain ⟨node, hn, takes⟩ := h.current
  obtain ⟨tree, ht, adopted, hnew⟩ := h.tree.append hn takes content
  refine ⟨{ unfinished with tree }, ?_, ⟨adopted.linked, fun id hid => ?_⟩, rfl, hnew⟩
  · rw [add?, ht]
    rfl
  · obtain ⟨found, hf, htakes⟩ := h.opened id hid
    by_cases he : unfinished.current = id
    · subst he
      obtain ⟨same, hs, hc, _⟩ := adopted.parent hf
      exact ⟨same, hs, by rwa [ArenaNode.takesChildren, hc]⟩
    · exact ⟨found, (adopted.old (lt_of_node? hf) he).trans hf, htakes⟩

/-- Every token can be taken, and keeps the links. -/
theorem Linked.step (h : unfinished.Linked) (token : Token) :
    ∃ after, unfinished.step? token = some after ∧ after.Linked := by
  cases token with
  | text shown =>
    obtain ⟨after, ha, hl, _⟩ := h.add (.text shown)
    exact ⟨after, ha, hl⟩
  | comment source =>
    obtain ⟨after, ha, hl, _⟩ := h.add (.verbatim source)
    exact ⟨after, ha, hl⟩
  | declaration source =>
    obtain ⟨after, ha, hl, _⟩ := h.add (.verbatim source)
    exact ⟨after, ha, hl⟩
  | opening name attributes selfClosing =>
    let form : Form :=
      if selfClosing then .selfClosed else if isVoidName name then .void else .normal
    obtain ⟨added, ha, hl, ho, hnew⟩ := h.add (.element ⟨name, attributes, form⟩)
    refine ⟨if form = .normal then _ else added, by rw [step?, ha]; rfl, ?_⟩
    split
    next hform =>
      refine ⟨hl.tree, List.forall_mem_cons.mpr ⟨⟨_, hnew, ?_⟩, hl.opened⟩⟩
      simp [ArenaNode.takesChildren, Content.showsChildren, Content.isElement, Content.element?,
        hform]
    next => exact hl
  | closing name =>
    rw [step?]
    split
    next => exact ⟨_, rfl, h.tree.withWarnings _, h.opened⟩
    next others _ =>
      refine ⟨_, rfl, ?_, fun id hid => ?_⟩
      · dsimp only
        split
        next => exact h.tree.withWarnings _
        next => exact h.tree
      · obtain ⟨node, hn, takes⟩ := h.opened id (List.mem_of_mem_drop hid)
        refine ⟨node, ?_, takes⟩
        dsimp only
        split
        next => exact hn
        next => exact hn

theorem Linked.steps (h : unfinished.Linked) (tokens : List Token) :
    ∃ after, tokens.foldlM step? unfinished = some after ∧ after.Linked := by
  induction tokens generalizing unfinished with
  | nil => exact ⟨unfinished, rfl, h⟩
  | cons token rest ih =>
    obtain ⟨middle, hm, hl⟩ := h.step token
    obtain ⟨after, ha, hl'⟩ := ih hl
    refine ⟨after, ?_, hl'⟩
    rw [List.foldlM_cons, hm]
    exact ha

end Unfinished

/-- Every text is read to an arena with its links. -/
theorem linked_read (text : Text) : ∃ tree, read? text = some tree ∧ tree.Linked [] := by
  have start : ({} : Unfinished).Linked := ⟨linked_empty, by simp⟩
  obtain ⟨last, hlast, hl⟩ := start.steps (tokens text)
  refine ⟨last.finish, by rw [read?, hlast]; rfl, ?_⟩
  unfold Unfinished.finish
  split
  next => exact hl.tree
  next => exact hl.tree.withWarnings _

/-- Parents and children name each other, once, and a child comes after its parent. Nothing is above
the document, and nothing is below a node that is written without children. -/
structure Sound (tree : Arena) : Prop where
  child {owner : Nat} {node : ArenaNode} : tree.node? owner = some node → ∀ id ∈ node.children,
    owner < id ∧ ∃ child, tree.node? id = some child ∧ child.parent = some owner
  listed {id parent : Nat} {node : ArenaNode} : tree.node? id = some node →
    node.parent = some parent →
    ∃ owner, tree.node? parent = some owner ∧ owner.children.count id = 1 ∧
      ∀ {other : Nat} {another : ArenaNode}, tree.node? other = some another →
        id ∈ another.children → other = parent
  document : ∃ node, tree.node? 0 = some node ∧ node.content = none ∧ node.parent = none
  only {id : Nat} {node : ArenaNode} : tree.node? id = some node → node.content = none → id = 0
  leaf {id : Nat} {node : ArenaNode} : tree.node? id = some node → node.takesChildren = false →
    node.children = []

/-- An arena is sound if its links are and no node is loose. -/
theorem Linked.sound {tree : Arena} (h : tree.Linked []) : tree.Sound where
  child := h.child
  listed hn hp := by
    obtain ⟨owner, ho, hm⟩ := h.listed hn hp List.not_mem_nil
    refine ⟨owner, ho, ?_, fun ha hm' => h.owner_unique ho hm ha hm'⟩
    rw [(h.nodup ho).count, if_pos hm]
  document := h.document
  only := h.only
  leaf := h.leaf

/-- In a sound arena no node is loose. -/
theorem Sound.linked {tree : Arena} (h : tree.Sound) : tree.Linked [] where
  child := h.child
  nodup {owner node} hn := by
    refine List.nodup_iff_count.mpr fun id => ?_
    by_cases hm : id ∈ node.children
    · obtain ⟨_, child, hc, hp⟩ := h.child hn id hm
      obtain ⟨above, ha, hcount, _⟩ := h.listed hc hp
      cases hn.symm.trans ha
      exact Nat.le_of_eq hcount
    · rw [List.count_eq_zero_of_not_mem hm]
      exact Nat.zero_le 1
  listed hn hp _ := by
    obtain ⟨owner, ho, hcount, _⟩ := h.listed hn hp
    exact ⟨owner, ho, List.count_pos_iff.mp (hcount ▸ Nat.one_pos)⟩
  loose_lt hid := absurd hid List.not_mem_nil
  loose_notMem hid := absurd hid List.not_mem_nil
  document := h.document
  only := h.only
  leaf := h.leaf

/-- A change of an arena. -/
inductive Edit where
  | detach (id : Nat)
  | replace (id : Nat) (fragment : Arena)
  | replaceRun (run : List Nat) (fragment : Arena)
  | replaceDocument (fragment : Arena)
  | appendFragment (fragment : Arena)
  | markLooped (id : Nat)

namespace Edit

/-- The arena after a change. -/
def run? (tree : Arena) : Edit → Option Arena
  | detach id => tree.detach? id
  | replace id fragment => tree.replace? id fragment
  | replaceRun run fragment => tree.replaceRun? run fragment
  | replaceDocument fragment => tree.replaceDocument? fragment
  | appendFragment fragment => tree.appendFragment? fragment
  | markLooped id => tree.markLooped? id

/-- The arena that a change copies from. -/
def fragment? : Edit → Option Arena
  | detach _ => none
  | replace _ fragment => some fragment
  | replaceRun _ fragment => some fragment
  | replaceDocument fragment => some fragment
  | appendFragment fragment => some fragment
  | markLooped _ => none

/-- A change concerns nodes of the arena. Nodes that are replaced together are siblings, in
order. -/
def Valid (tree : Arena) : Edit → Prop
  | detach id => id < tree.size
  | replace id _ => id < tree.size
  | replaceRun run _ => tree.Siblings run
  | replaceDocument _ => True
  | appendFragment _ => True
  | markLooped id => id < tree.size

end Edit

/-- The arenas that come from reading texts, cutting out fragments, and changes. -/
inductive Obtained : Arena → Prop
  | empty : Obtained {}
  | read {text : Text} {tree : Arena} : read? text = some tree → Obtained tree
  | childrenFragment {tree fragment : Arena} {id : Nat} :
      Obtained tree → tree.childrenFragment? id = some fragment → Obtained fragment
  | edit {tree after : Arena} {edit : Edit} : Obtained tree →
      (∀ fragment ∈ edit.fragment?, Obtained fragment) → edit.run? tree = some after →
      Obtained after

/-- A change keeps the links. -/
theorem Linked.edit {edit : Edit} (h : tree.Linked [])
    (hf : ∀ fragment ∈ edit.fragment?, fragment.Linked []) (he : edit.run? tree = some after) :
    after.Linked [] := by
  cases edit with
  | detach id =>
    obtain ⟨node, hn⟩ := node?_of_detach? he
    obtain ⟨same, hs, hd⟩ := h.detach hn
    cases he.symm.trans hs
    exact hd.linked
  | replace id fragment =>
    have alone : tree.replaceRun? [id] fragment = some after := he
    exact h.replaceRun (hf fragment rfl) alone
  | replaceRun run fragment => exact h.replaceRun (hf fragment rfl) he
  | replaceDocument fragment =>
    obtain ⟨same, hs, hl⟩ := h.replaceDocument (hf fragment rfl)
    cases he.symm.trans hs
    exact hl
  | appendFragment fragment =>
    obtain ⟨same, hs, hl⟩ := h.appendFragment (hf fragment rfl)
    cases he.symm.trans hs
    exact hl
  | markLooped id =>
    obtain ⟨node, hn⟩ := node?_of_update? he
    obtain ⟨same, hs, hl⟩ := h.markLooped hn
    cases he.symm.trans hs
    exact hl

/-- A valid change can be made. -/
theorem Linked.edit_valid {edit : Edit} (h : tree.Linked [])
    (hf : ∀ fragment ∈ edit.fragment?, fragment.Linked []) (hv : edit.Valid tree) :
    ∃ after, edit.run? tree = some after := by
  cases edit with
  | detach id =>
    obtain ⟨node, hn⟩ := node?_of_lt hv
    obtain ⟨after, ha, _⟩ := h.detach hn
    exact ⟨after, ha⟩
  | replace id fragment =>
    obtain ⟨node, hn⟩ := node?_of_lt hv
    cases hp : node.parent with
    | none =>
      refine ⟨tree, ?_⟩
      simp [Edit.run?, replace?, replaceRun?, indexInParent?_top hn hp]
    | some parent =>
      obtain ⟨owner, ho, hm⟩ := h.listed hn hp List.not_mem_nil
      exact h.replaceRun_siblings (hf fragment rfl)
        ⟨parent, owner, ho, List.singleton_sublist.mpr hm⟩
  | replaceRun run fragment => exact h.replaceRun_siblings (hf fragment rfl) hv
  | replaceDocument fragment =>
    obtain ⟨after, ha, _⟩ := h.replaceDocument (hf fragment rfl)
    exact ⟨after, ha⟩
  | appendFragment fragment =>
    obtain ⟨after, ha, _⟩ := h.appendFragment (hf fragment rfl)
    exact ⟨after, ha⟩
  | markLooped id =>
    obtain ⟨node, hn⟩ := node?_of_lt hv
    obtain ⟨after, ha, _⟩ := h.markLooped hn
    exact ⟨after, ha⟩

theorem Obtained.linked (h : Obtained tree) : tree.Linked [] := by
  induction h with
  | empty => exact linked_empty
  | @read text tree hr =>
    obtain ⟨same, hs, hl⟩ := linked_read text
    cases hr.symm.trans hs
    exact hl
  | @childrenFragment tree fragment id _ hf ih =>
    obtain ⟨node, hn, _⟩ := Option.bind_eq_some_iff.mp hf
    obtain ⟨same, hs, hl⟩ := ih.childrenFragment hn
    cases hf.symm.trans hs
    exact hl
  | edit _ _ he ih ihf => exact ih.edit ihf he

/-- Every arena that comes about is sound, and every valid change of it can be made. -/
theorem sound_of_obtained (h : Obtained tree) :
    tree.Sound ∧ ∀ edit : Edit, edit.Valid tree →
      (∀ fragment ∈ edit.fragment?, Obtained fragment) → ∃ after, edit.run? tree = some after :=
  ⟨h.linked.sound, fun _ hv hf => h.linked.edit_valid (fun f hm => (hf f hm).linked) hv⟩

/-- The arena of `<b>x</b><br>` with that of `<i>y</i>` in the place of `x`. -/
def replacedText : Arena where
  nodes := #[
    { content := none, children := [1, 3] },
    { content := some (.element ⟨['b'], [], .normal⟩), parent := some 0, children := [4] },
    { content := some (.text ['x']) },
    { content := some (.element ⟨['b', 'r'], [], .void⟩), parent := some 0 },
    { content := some (.element ⟨['i'], [], .normal⟩), parent := some 1, children := [5] },
    { content := some (.text ['y']), parent := some 4 }]

theorem obtained_replacedText : Obtained replacedText := by
  obtain ⟨tree, ht, _⟩ := linked_read "<b>x</b><br>".toList
  obtain ⟨fragment, hf, _⟩ := linked_read "<i>y</i>".toList
  have replaced : (read? "<b>x</b><br>".toList).bind (fun tree =>
      (read? "<i>y</i>".toList).bind fun fragment => tree.replace? 2 fragment) =
        some replacedText := by decide +kernel
  rw [ht, hf, Option.bind_some, Option.bind_some] at replaced
  have edited : (Edit.replace 2 fragment).run? tree = some replacedText := replaced
  refine .edit (.read ht) (fun found hm => ?_) edited
  cases hm
  exact .read hf

/-- The arena is sound, and its first element can be taken out. -/
theorem sound_replacedText :
    Obtained replacedText ∧ replacedText.Sound ∧
      ∃ after, (Edit.detach 1).run? replacedText = some after :=
  ⟨obtained_replacedText, (sound_of_obtained obtained_replacedText).1,
    (sound_of_obtained obtained_replacedText).2 (.detach 1) (show 1 < 6 by decide) nofun⟩

end Arena

end MarkupTemplate
