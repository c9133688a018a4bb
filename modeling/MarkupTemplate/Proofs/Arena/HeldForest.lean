import MarkupTemplate.Proofs.Markup.BuilderSteps
import MarkupTemplate.Proofs.Arena.ArenaLinks

namespace MarkupTemplate

namespace Arena

/-- The children of a node hold a forest; `all` are the nodes of it at all depths. -/
inductive Lists (tree : Arena) : Nat → List Nat → Forest → List Nat → Prop
  | nil {parent : Nat} : Lists tree parent [] .nil []
  | cons {parent id : Nat} {node : ArenaNode} {content : Content} {rest inner others : List Nat}
      {children next : Forest} : tree.node? id = some node → node.content = some content →
      node.parent = some parent → Lists tree id node.children children inner →
      Lists tree parent rest next others →
      Lists tree parent (id :: rest) (.node content children next) (id :: (inner ++ others))

namespace Lists

variable {tree after : Arena} {parent : Nat} {ids others all more : List Nat}
  {forest following : Forest}

/-- Nodes hold the same forest in every arena that has them. -/
theorem frame (h : tree.Lists parent ids forest all)
    (hsame : ∀ k ∈ all, after.node? k = tree.node? k) : after.Lists parent ids forest all := by
  induction h with
  | nil => exact .nil
  | cons hn hc hp _ _ ihc ihn =>
    obtain ⟨hid, hrest⟩ := List.forall_mem_cons.mp hsame
    refine .cons (hid.trans hn) hc hp (ihc fun k hk => ?_) (ihn fun k hk => ?_)
    · exact hrest k (List.mem_append_left _ hk)
    · exact hrest k (List.mem_append_right _ hk)

theorem append (h : tree.Lists parent ids forest all)
    (h' : tree.Lists parent others following more) :
    tree.Lists parent (ids ++ others) (forest ++ following) (all ++ more) := by
  induction h with
  | nil => exact h'
  | @cons parent id node content rest inner others children next hn hc hp hchildren _ _ ih =>
    have whole := Lists.cons hn hc hp hchildren (ih h')
    rwa [← List.append_assoc] at whole

/-- A forest of one node. -/
theorem single {id : Nat} {node : ArenaNode} {content : Content} (hn : tree.node? id = some node)
    (hc : node.content = some content) (hp : node.parent = some parent)
    (h : tree.Lists id node.children forest all) :
    tree.Lists parent [id] (.node content forest .nil) (id :: all) := by
  have whole := Lists.cons hn hc hp h .nil
  rwa [List.append_nil] at whole

theorem eq_nil (h : tree.Lists parent ids .nil all) : ids = [] := by
  cases h
  rfl

end Lists

/-- The nodes below the document hold a forest. -/
def Holds (tree : Arena) (forest : Forest) : Prop :=
  ∃ document all, tree.node? 0 = some document ∧ tree.Lists 0 document.children forest all ∧
    ∀ k ∈ all, 0 < k

/-- The children that a node has so far hold the nodes that were read last, but for a last child
that is still open. All nodes are numbered in the order of the text. -/
def Level (tree : Arena) (child : Option Nat) (id : Nat) (node : ArenaNode) (nodes : Forest) :
    Prop :=
  tree.node? id = some node ∧ id < child.getD tree.size ∧
    ∃ ids all, node.children = ids ++ child.toList ∧ tree.Lists id ids nodes.reverse all ∧
      ∀ k ∈ all, id < k ∧ k < child.getD tree.size

/-- The open elements of an arena, from one whose last child is open as well. -/
inductive Spine (tree : Arena) : Option Nat → List Nat → Forest → List OpenElement → Prop
  | document {child : Option Nat} {node : ArenaNode} {nodes : Forest} :
      Level tree child 0 node nodes → Spine tree child [] nodes []
  | element {child : Option Nat} {id : Nat} {opened : List Nat} {node : ArenaNode} {e : Element}
      {nodes before : Forest} {around : List OpenElement} :
      Level tree child id node nodes → node.content = some (.element e) →
      node.parent = some (opened.head?.getD 0) → Spine tree (some id) opened before around →
      Spine tree child (id :: opened) nodes (⟨e, before⟩ :: around)

variable {tree after : Arena} {child : Option Nat} {id parent : Nat} {node owner : ArenaNode}
  {nodes before : Forest} {opened : List Nat} {around : List OpenElement} {content : Content}

theorem Level.frame (h : tree.Level child id node nodes) (hsize : tree.size ≤ after.size)
    (hsame : ∀ k < child.getD tree.size, after.node? k = tree.node? k) :
    after.Level child id node nodes := by
  have hlimit : child.getD tree.size ≤ child.getD after.size := by
    cases child with
    | none => exact hsize
    | some c => exact Nat.le_refl c
  obtain ⟨hn, hlt, ids, all, hids, hlists, hall⟩ := h
  refine ⟨(hsame id hlt).trans hn, Nat.lt_of_lt_of_le hlt hlimit, ids, all, hids, ?_, ?_⟩
  · exact hlists.frame fun k hk => hsame k (hall k hk).2
  · exact fun k hk => ⟨(hall k hk).1, Nat.lt_of_lt_of_le (hall k hk).2 hlimit⟩

/-- Only what stands before the open child matters. -/
theorem Spine.frame (h : tree.Spine child opened nodes around) (hsize : tree.size ≤ after.size)
    (hsame : ∀ k < child.getD tree.size, after.node? k = tree.node? k) :
    after.Spine child opened nodes around := by
  induction h with
  | document hl => exact .document (hl.frame hsize hsame)
  | element hl hc hp _ ih =>
    refine .element (hl.frame hsize hsame) hc hp (ih fun k hk => hsame k ?_)
    exact Nat.lt_trans hk hl.2.1

/-- Closing the last child of a node. -/
theorem Level.close {e : Element} (h : tree.Level (some id) parent owner before)
    (h' : tree.Level none id node nodes) (hc : node.content = some (.element e))
    (hp : node.parent = some parent) :
    tree.Level none parent owner (.node (.element e) nodes.reverse before) := by
  obtain ⟨ho, hlt, ids, all, hids, hlists, hall⟩ := h
  obtain ⟨hn, hsize, ids', all', hids', hlists', hall'⟩ := h'
  rw [Option.toList_none, List.append_nil] at hids'
  rw [← hids'] at hlists'
  refine ⟨ho, Nat.lt_trans hlt hsize, ids ++ [id], all ++ id :: all', by simpa using hids, ?_, ?_⟩
  · rw [Forest.reverse_node]
    exact hlists.append (.single hn hc hp hlists')
  · intro k hk
    simp only [Option.getD_none, Option.getD_some] at hall hall' hsize hlt ⊢
    rcases List.mem_append.mp hk with hk | hk
    · exact ⟨(hall k hk).1, Nat.lt_trans (hall k hk).2 hsize⟩
    · rcases List.mem_cons.mp hk with rfl | hk
      · exact ⟨hlt, hsize⟩
      · exact ⟨Nat.lt_trans hlt (hall' k hk).1, (hall' k hk).2⟩

/-- A node is added to the children of another. -/
structure Appended (tree after : Arena) (parent : Nat) (node : ArenaNode) (content : Content) :
    Prop where
  size : after.size = tree.size + 1
  new : after.node? tree.size = some ⟨some content, false, some parent, []⟩
  owner : after.node? parent = some { node with children := node.children ++ [tree.size] }
  old {k : Nat} : k < tree.size → parent ≠ k → after.node? k = tree.node? k
  warnings : after.warnings = tree.warnings

theorem warnings_of_update? {change : ArenaNode → ArenaNode}
    (h : tree.update? id change = some after) : after.warnings = tree.warnings := by
  unfold update? at h
  split at h
  next =>
    cases h
    rfl
  next => cases h

theorem append?_of_node? (hn : tree.node? parent = some node) (content : Content) :
    ∃ after, tree.append? parent content = some after ∧
      Appended tree after parent node content := by
  have hlt := lt_of_node? hn
  have hn' := (node?_push_of_lt hlt ⟨some content, false, some parent, []⟩).trans hn
  obtain ⟨after, ha, hu⟩ := update?_of_node? hn' fun node =>
    { node with children := node.children ++ [tree.size] }
  refine ⟨after, ha, ?_⟩
  constructor
  case size => rw [hu.size, size_push]
  case new =>
    rw [hu.other (Nat.ne_of_lt hlt), node?_push, if_pos rfl]
  case owner => exact hu.self hn'
  case old =>
    intro k hk hne
    rw [hu.other hne, node?_push_of_lt hk]
  case warnings => exact (warnings_of_update? ha).trans rfl

/-- The new node is the last one of its level. -/
theorem Level.add (h : tree.Level none parent node nodes)
    (ha : Appended tree after parent node content) :
    after.Level none parent { node with children := node.children ++ [tree.size] }
      (.node content .nil nodes) := by
  obtain ⟨hn, hlt, ids, all, hids, hlists, hall⟩ := h
  rw [Option.getD_none] at hlt
  have hnew : after.Lists parent [tree.size] (.node content .nil .nil) [tree.size] :=
    .single ha.new rfl rfl .nil
  refine ⟨ha.owner, ?_, ids ++ [tree.size], all ++ [tree.size], ?_, ?_, ?_⟩
  · rw [Option.getD_none, ha.size]
    exact Nat.lt_succ_of_lt hlt
  · simpa using hids
  · rw [Forest.reverse_node]
    refine .append (hlists.frame fun k hk => ?_) hnew
    exact ha.old (hall k hk).2 (Nat.ne_of_lt (hall k hk).1)
  · intro k hk
    rw [Option.getD_none, ha.size]
    rcases List.mem_append.mp hk with hk | hk
    · exact ⟨(hall k hk).1, Nat.lt_succ_of_lt (hall k hk).2⟩
    · rw [List.mem_singleton.mp hk]
      exact ⟨hlt, Nat.lt_succ_self _⟩

/-- The new node is still open. -/
theorem Level.enter (h : tree.Level none parent node nodes)
    (ha : Appended tree after parent node content) :
    after.Level (some tree.size) parent { node with children := node.children ++ [tree.size] }
      nodes := by
  obtain ⟨hn, hlt, ids, all, hids, hlists, hall⟩ := h
  refine ⟨ha.owner, hlt, ids, all, by simpa using hids, ?_, hall⟩
  exact hlists.frame fun k hk => ha.old (hall k hk).2 (Nat.ne_of_lt (hall k hk).1)

/-- An element that was just opened. -/
theorem Level.fresh (ha : Appended tree after parent node content) :
    after.Level none tree.size ⟨some content, false, some parent, []⟩ .nil := by
  refine ⟨ha.new, ?_, [], [], rfl, .nil, by simp⟩
  rw [Option.getD_none, ha.size]
  exact Nat.lt_succ_self _

/-- The innermost level of a spine, and the rest of it. -/
theorem Spine.level (h : tree.Spine child opened nodes around) :
    ∃ node, tree.Level child (opened.head?.getD 0) node nodes := by
  cases h with
  | document hl => exact ⟨_, hl⟩
  | element hl => exact ⟨_, hl⟩

/-- A level can be changed as long as what is before it stays. -/
theorem Spine.change {child' : Option Nat} {nodes' : Forest}
    (h : tree.Spine child opened nodes around)
    (hold : ∀ k < opened.head?.getD 0, after.node? k = tree.node? k)
    (hsize : tree.size ≤ after.size)
    (hlevel : ∀ {node}, tree.Level child (opened.head?.getD 0) node nodes →
      ∃ node', after.Level child' (opened.head?.getD 0) node' nodes' ∧
        node'.content = node.content ∧ node'.parent = node.parent) :
    after.Spine child' opened nodes' around := by
  cases h with
  | document hl =>
    obtain ⟨node', hl', _⟩ := hlevel hl
    exact .document hl'
  | element hl hc hp houter =>
    obtain ⟨node', hl', hc', hp'⟩ := hlevel hl
    exact .element hl' (hc'.trans hc) (hp'.trans hp) (houter.frame hsize hold)

namespace Unfinished

/-- An arena and a forest that are read from the same tokens. -/
structure Follows (unfinished : Unfinished) (builder : Builder) : Prop where
  spine : unfinished.tree.Spine none unfinished.opened builder.nodes builder.around
  warnings : unfinished.tree.warnings = builder.warnings.reverse

variable {unfinished : Unfinished} {builder : Builder}

namespace Follows

theorem appended (h : unfinished.Follows builder) (content : Content) :
    ∃ node tree, unfinished.tree.node? unfinished.current = some node ∧
      unfinished.tree.append? unfinished.current content = some tree ∧
      Appended unfinished.tree tree unfinished.current node content := by
  obtain ⟨node, hl⟩ := h.spine.level
  obtain ⟨tree, ht, ha⟩ := append?_of_node? hl.1 content
  exact ⟨node, tree, hl.1, ht, ha⟩

theorem add (h : unfinished.Follows builder) (content : Content) :
    ∃ after, unfinished.add? content = some after ∧ after.Follows (builder.add content) := by
  obtain ⟨node, tree, hn, ht, ha⟩ := h.appended content
  refine ⟨{ unfinished with tree }, by rw [add?, ht]; rfl, ?_, ha.warnings.trans h.warnings⟩
  refine h.spine.change (fun k hk => ha.old ?_ (Nat.ne_of_gt hk)) ?_ fun hl => ?_
  · exact Nat.lt_trans hk (lt_of_node? hn)
  · exact ha.size ▸ Nat.le_succ _
  · cases hn.symm.trans hl.1
    exact ⟨_, hl.add ha, rfl, rfl⟩

theorem enter (h : unfinished.Follows builder) (e : Element) :
    ∃ after, unfinished.add? (.element e) = some after ∧
      Follows { after with opened := unfinished.tree.size :: after.opened } (builder.enter e) := by
  obtain ⟨node, tree, hn, ht, ha⟩ := h.appended (.element e)
  refine ⟨{ unfinished with tree }, by rw [add?, ht]; rfl, ?_, ha.warnings.trans h.warnings⟩
  refine .element (.fresh ha) rfl rfl ?_
  refine h.spine.change (fun k hk => ha.old ?_ (Nat.ne_of_gt hk)) ?_ fun hl => ?_
  · exact Nat.lt_trans hk (lt_of_node? hn)
  · exact ha.size ▸ Nat.le_succ _
  · cases hn.symm.trans hl.1
    exact ⟨_, hl.enter ha, rfl, rfl⟩

theorem warn (h : unfinished.Follows builder) (warning : Warning) :
    Follows { unfinished with tree := unfinished.tree.warn warning } (builder.warn warning) := by
  refine ⟨h.spine.frame (Nat.le_refl _) fun _ _ => rfl, ?_⟩
  simp [Arena.warn, Builder.warn, h.warnings]

/-- Closing the innermost element. -/
theorem leave_one (h : unfinished.Follows builder) :
    Follows { unfinished with opened := unfinished.opened.drop 1 } (builder.leave 1) := by
  obtain ⟨tree, opened⟩ := unfinished
  obtain ⟨nodes, around, warnings⟩ := builder
  obtain ⟨hspine, hwarnings⟩ := h
  refine ⟨?_, hwarnings⟩
  cases hspine with
  | document hl => exact .document hl
  | element hl hc hp houter =>
    refine houter.change (fun _ _ => rfl) (Nat.le_refl _) fun hl' => ?_
    exact ⟨_, hl'.close hl hc hp, rfl, rfl⟩

theorem leave (h : unfinished.Follows builder) (count : Nat) :
    Follows { unfinished with opened := unfinished.opened.drop count } (builder.leave count) := by
  induction count generalizing unfinished builder with
  | zero => exact h
  | succ count ih =>
    have outer := ih h.leave_one
    rwa [List.drop_drop, Nat.add_comm 1 count, ← Builder.leave_succ] at outer

theorem findIdx? (h : unfinished.Follows builder) (name : Text) :
    unfinished.opened.findIdx? (unfinished.tree.isTag name) =
      builder.around.findIdx? fun level => sameName level.element.name name := by
  have hspine := h.spine
  generalize none = child, builder.nodes = nodes at hspine
  generalize unfinished.opened = opened, builder.around = around at hspine
  induction hspine with
  | document => rfl
  | @element child id opened node e nodes before around hl hc _ _ ih =>
    have tag : unfinished.tree.isTag name id = sameName e.name name := by
      simp [isTag, hl.1, hc, Content.isElement, Content.element?]
    rw [List.findIdx?_cons, List.findIdx?_cons, tag, ih]

/-- Both take a token. -/
theorem step (h : unfinished.Follows builder) (token : Token) :
    ∃ after, unfinished.step? token = some after ∧ after.Follows (builder.step token) := by
  cases token with
  | text shown => exact h.add (.text shown)
  | comment source => exact h.add (.verbatim source)
  | declaration source => exact h.add (.verbatim source)
  | opening name attributes selfClosing =>
    simp only [step?, Builder.step]
    cases selfClosing with
    | true =>
      obtain ⟨after, ha, hf⟩ := h.add (.element ⟨name, attributes, .selfClosed⟩)
      exact ⟨after, by simp [ha], by simpa using hf⟩
    | false =>
      cases hv : isVoidName name with
      | true =>
        obtain ⟨after, ha, hf⟩ := h.add (.element ⟨name, attributes, .void⟩)
        exact ⟨after, by simp [ha], by simpa using hf⟩
      | false =>
        obtain ⟨after, ha, hf⟩ := h.enter ⟨name, attributes, .normal⟩
        exact ⟨{ after with opened := unfinished.tree.size :: after.opened }, by simp [ha],
          by simpa using hf⟩
  | closing name =>
    rw [step?, Builder.step, h.findIdx? name]
    cases builder.around.findIdx? fun level => sameName level.element.name name with
    | none => exact ⟨_, rfl, h.warn _⟩
    | some others =>
      refine ⟨_, rfl, ?_⟩
      cases others with
      | zero => exact h.leave 1
      | succ others => exact (h.warn (.closesOthers name (others + 1))).leave (others + 2)

theorem steps (h : unfinished.Follows builder) (tokens : List Token) :
    ∃ after, tokens.foldlM step? unfinished = some after ∧
      after.Follows (tokens.foldl Builder.step builder) := by
  induction tokens generalizing unfinished builder with
  | nil => exact ⟨unfinished, rfl, h⟩
  | cons token rest ih =>
    obtain ⟨middle, hm, hf⟩ := h.step token
    obtain ⟨after, ha, hf'⟩ := ih hf
    refine ⟨after, ?_, hf'⟩
    rw [List.foldlM_cons, hm]
    exact ha

theorem length_opened (h : unfinished.Follows builder) :
    unfinished.opened.length = builder.around.length := by
  have hspine := h.spine
  generalize none = child, builder.nodes = nodes at hspine
  generalize unfinished.opened = opened, builder.around = around at hspine
  induction hspine with
  | document => rfl
  | element _ _ _ _ ih => exact congrArg (· + 1) ih

/-- What is still open is closed. -/
theorem holds (h : unfinished.Follows builder) : unfinished.tree.Holds builder.finish.1 := by
  have closed := h.leave builder.around.length
  have hspine := closed.spine
  rw [← h.length_opened, List.drop_length, h.length_opened] at hspine
  obtain ⟨document, hn, _, ids, all, hids, hlists, hall⟩ := hspine.level
  rw [Option.toList_none, List.append_nil] at hids
  refine ⟨document, all, hn, ?_, fun k hk => (hall k hk).1⟩
  rw [hids, Builder.finish_forest]
  exact hlists

theorem finish_holds (h : unfinished.Follows builder) :
    unfinished.finish.Holds builder.finish.1 := by
  unfold Unfinished.finish
  split
  next => exact h.holds
  next =>
    obtain ⟨document, all, hn, hlists, hall⟩ := h.holds
    exact ⟨document, all, hn, hlists.frame fun _ _ => rfl, hall⟩

theorem finish_warnings (h : unfinished.Follows builder) :
    unfinished.finish.warnings = builder.finish.2 := by
  have hlength := h.length_opened
  unfold Unfinished.finish Builder.finish
  cases ho : unfinished.opened with
  | nil =>
    rw [ho] at hlength
    rw [List.length_eq_zero_iff.mp hlength.symm]
    exact h.warnings
  | cons id opened =>
    cases ha : builder.around with
    | nil =>
      rw [ho, ha] at hlength
      cases hlength
    | cons level around =>
      rw [ho, ha] at hlength
      simp [Arena.warn, Builder.warn, h.warnings, ← hlength]

end Follows

end Unfinished

/-- The arena of a text holds the forest of the text, and reading them needs the same repairs. -/
theorem holds_read (text : Text) :
    ∃ tree, read? text = some tree ∧ tree.Holds (readForest text).1 ∧
      tree.warnings = (readForest text).2 := by
  have start : Unfinished.Follows {} {} := by
    have level : Level {} none 0 { content := none } .nil :=
      ⟨rfl, Nat.one_pos, [], [], rfl, .nil, by simp⟩
    exact ⟨.document level, rfl⟩
  obtain ⟨last, hlast, h⟩ := start.steps (tokens text)
  exact ⟨last.finish, by rw [read?, hlast]; rfl, h.finish_holds, h.finish_warnings⟩

end Arena

end MarkupTemplate
