import MarkupTemplate.Proofs.Arena.NodeCopies

namespace MarkupTemplate

namespace Arena

variable {tree middle after fragment : Arena} {parent id : Nat}
  {before run new later ids all : List Nat} {node owner : ArenaNode} {forest : Forest}

/-- Children of a node hold some forest. -/
theorem Linked.exists_lists (h : tree.Linked [])
    (hids : ∀ id ∈ ids, parent < id ∧ ∃ node, tree.node? id = some node ∧
      node.parent = some parent) :
    ∃ forest all, tree.Lists parent ids forest all := by
  obtain ⟨height, hheight⟩ : ∃ height, tree.size ≤ parent + height := ⟨tree.size, by omega⟩
  induction height generalizing parent ids with
  | zero =>
    cases ids with
    | nil => exact ⟨.nil, [], .nil⟩
    | cons id rest =>
      obtain ⟨hlt, node, hn, _⟩ := hids id List.mem_cons_self
      have := lt_of_node? hn
      omega
  | succ height ih =>
    induction ids with
    | nil => exact ⟨.nil, [], .nil⟩
    | cons id rest ihRest =>
      obtain ⟨⟨hlt, node, hn, hp⟩, hrest⟩ := List.forall_mem_cons.mp hids
      obtain ⟨content, hc⟩ : ∃ content, node.content = some content := by
        refine Option.ne_none_iff_exists'.mp fun hnone => ?_
        rw [h.only hn hnone] at hlt
        exact Nat.not_lt_zero _ hlt
      obtain ⟨children, inner, hchildren⟩ := ih (h.child hn) (by omega)
      obtain ⟨next, others, hnext⟩ := ihRest hrest
      exact ⟨_, _, .cons hn hc hp hchildren hnext⟩

/-- Nodes `run` next to each other were replaced by copies of nodes of a source. -/
structure Replaced (tree after : Arena) (parent : Nat) (owner : ArenaNode)
    (before run later : List Nat) (source : Arena) (ids new : List Nat) : Prop where
  linked : after.Linked []
  owner : after.node? parent = some { owner with children := before ++ new ++ later }
  copies : Mirrors source after tree.size parent ids new
  gone : ∀ id ∈ run, after.node? id = (tree.node? id).map fun node => { node with parent := none }
  old {k : Nat} : k < tree.size → k ≠ parent → k ∉ run → after.node? k = tree.node? k

theorem foldl_erase_of_notMem {ids : List Nat} (h : ∀ id ∈ run, id ∉ ids) :
    run.foldl List.erase ids = ids := by
  induction run with
  | nil => rfl
  | cons id rest ih =>
    obtain ⟨hid, hrest⟩ := List.forall_mem_cons.mp h
    rw [List.foldl_cons, List.erase_of_not_mem hid, ih hrest]

theorem foldl_erase_run (h : (before ++ run ++ later).Nodup) :
    run.foldl List.erase (before ++ run ++ later) = before ++ later := by
  induction run with
  | nil => simp
  | cons id rest ih =>
    rw [List.append_assoc, List.cons_append] at h
    obtain ⟨hid, hrest⟩ := List.nodup_cons.mp (List.perm_middle.nodup_iff.mp h)
    have hbefore : id ∉ before := fun hm => hid (List.mem_append_left _ hm)
    rw [List.foldl_cons, List.append_assoc, List.erase_append_right _ hbefore, List.cons_append,
      List.erase_cons_head, ← List.append_assoc]
    exact ih (List.append_assoc .. ▸ hrest)

/-- Taking out children of a node changes no other node but them. -/
theorem Detached.other {k : Nat} (hd : Detached tree middle run) (h : tree.Linked [])
    (ho : tree.node? parent = some owner) (hrun : ∀ id ∈ run, id ∈ owner.children)
    (hk : k ≠ parent) : middle.node? k =
      (tree.node? k).map fun node => { node with parent := if k ∈ run then none else node.parent } := by
  rw [hd.node]
  cases hf : tree.node? k with
  | none => rfl
  | some found =>
    have apart : ∀ id ∈ run, id ∉ found.children := fun id hid hm =>
      hk (h.owner_unique ho (hrun id hid) hf hm)
    rw [Option.map_some, Option.map_some, foldl_erase_of_notMem apart]

/-- Children of a node that stand next to each other can be replaced. -/
theorem Linked.replaced (h : tree.Linked []) (hf : fragment.Linked [])
    (ho : tree.node? parent = some owner) (hsplit : owner.children = before ++ run ++ later)
    (hne : run ≠ []) :
    ∃ top new after, fragment.node? 0 = some top ∧ tree.replaceRun? run fragment = some after ∧
      Replaced tree after parent owner before run later fragment top.children new := by
  obtain ⟨first, rest, rfl⟩ := List.exists_cons_of_ne_nil hne
  have hnodup := hsplit ▸ h.nodup ho
  have hrun : ∀ id ∈ first :: rest, id ∈ owner.children := fun id hid => by
    rw [hsplit]
    exact List.mem_append_left _ (List.mem_append_right _ hid)
  have child : ∀ id ∈ first :: rest, parent < id ∧
      ∃ node, tree.node? id = some node ∧ node.parent = some parent := fun id hid =>
    h.child ho id (hrun id hid)
  obtain ⟨_, node, hn, hp⟩ := child first List.mem_cons_self
  have hparent : parent ∉ first :: rest := fun hm => Nat.lt_irrefl _ (child parent hm).1
  have hbefore : first ∉ before := fun hm => by
    rw [List.append_assoc] at hnodup
    exact (List.nodup_append.mp hnodup).2.2 first hm first (by simp) rfl
  have hindex : owner.children.idxOf? first = some before.length := by
    rw [hsplit, List.append_assoc, List.cons_append]
    exact idxOf?_append_cons hbefore _
  obtain ⟨middle, next, new, he, hd, hgraft, grafted⟩ :=
    h.replaceRun?_eq hf hn hp ho hindex fun id hid => ⟨_, (child id hid).2.choose_spec.1⟩
  have howner : middle.node? parent = some { owner with children := before ++ later } := by
    rw [hd.node, ho, Option.map_some, if_neg hparent, hsplit, foldl_erase_run hnodup]
  obtain ⟨top, htop, _⟩ := hf.document
  rw [graftTop?, htop] at hgraft
  obtain ⟨forest, all, hlists⟩ := hf.exists_lists (hf.child htop)
  obtain ⟨_, copied⟩ := hlists.graftedAll (lt_of_node? howner) hgraft
  have takes := takesChildren_of_mem h ho (hrun first List.mem_cons_self)
  obtain ⟨after, ha, hl, hu⟩ := grafted.spliced before.length howner takes (by simp)
  -- Grafting appends nodes only, so an old node is as it was after the run was taken out.
  have hold {k : Nat} (hk : k < tree.size) (hne : k ≠ parent) : after.node? k =
      (tree.node? k).map fun node =>
        { node with parent := if k ∈ first :: rest then none else node.parent } := by
    rw [hu.other hne.symm, grafted.old (hd.size ▸ hk), hd.other h ho hrun hne]
  refine ⟨top, new, after, htop, he.trans ha, ?_⟩
  constructor
  case linked => exact hl
  case owner =>
    rw [hu.self ((grafted.old (lt_of_node? howner)).trans howner)]
    simp
  case copies =>
    rw [← hd.size]
    exact (copied.updated (lt_of_node? howner) hu).mirrors
  case gone =>
    intro id hid
    obtain ⟨_, found, hfound, _⟩ := child id hid
    rw [hold (lt_of_node? hfound) fun he => hparent (he ▸ hid)]
    simp only [hid, if_true]
  case old =>
    intro k hk hne hout
    rw [hold hk hne]
    simp only [hout, if_false, Option.map_id']

end Arena

end MarkupTemplate
