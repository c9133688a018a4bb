import MarkupTemplate.Proofs.InPlace.ArenaIncludes

namespace MarkupTemplate

/-- The text of parts. -/
def partsText (parts : List (Nat × Text)) : Text :=
  parts.flatMap Prod.snd

namespace Arena

/-- The text of a node with all below it, each part with its node. -/
def partsBelow? (tree : Arena) : Nat → Nat → Option (List (Nat × Text))
  | 0, _ => none
  | depth + 1, id => do
    let node ← tree.node? id
    let inside := do return (← node.children.mapM (partsBelow? tree depth)).flatten
    match node.content with
    | none => inside
    | some content =>
      if content.showsChildren then
        some ((id, content.opening) :: (← inside) ++ [(id, content.closing)])
      else some [(id, content.opening)]

/-- The parts that nodes are written in. -/
def parts? (tree : Arena) (ids : List Nat) : Option (List (Nat × Text)) := do
  return (← ids.mapM (tree.partsBelow? tree.size)).flatten

/-- Nodes are written in parts. -/
inductive Writes (tree : Arena) : List Nat → List (Nat × Text) → Prop
  | nil : Writes tree [] []
  | leaf {id : Nat} {node : ArenaNode} {content : Content} {rest : List Nat}
      {later : List (Nat × Text)} : tree.node? id = some node → node.content = some content →
      content.showsChildren = false → Writes tree rest later →
      Writes tree (id :: rest) ((id, content.opening) :: later)
  | node {id : Nat} {node : ArenaNode} {content : Content} {rest : List Nat}
      {inside later : List (Nat × Text)} : tree.node? id = some node →
      node.content = some content → content.showsChildren = true →
      Writes tree node.children inside → Writes tree rest later →
      Writes tree (id :: rest)
        ((id, content.opening) :: (inside ++ (id, content.closing) :: later))

variable {source tree after : Arena} {floor parent id depth : Nat} {ids all new rest : List Nat}
  {node : ArenaNode} {parts later : List (Nat × Text)} {forest : Forest}

theorem partsText_append (parts later : List (Nat × Text)) :
    partsText (parts ++ later) = partsText parts ++ partsText later :=
  List.flatMap_append

theorem partsText_congr {others : List (Nat × Text)}
    (h : others.map Prod.snd = parts.map Prod.snd) : partsText others = partsText parts := by
  rw [partsText, partsText, List.flatMap_def, List.flatMap_def, h]

namespace Writes

theorem append (h : tree.Writes ids parts) (h' : tree.Writes rest later) :
    tree.Writes (ids ++ rest) (parts ++ later) := by
  induction h with
  | nil => exact h'
  | leaf hn hc hs _ ih => exact .leaf hn hc hs ih
  | node hn hc hs hchildren _ _ ih =>
    rw [List.cons_append, List.cons_append, List.append_assoc, List.cons_append]
    exact .node hn hc hs hchildren ih

/-- Nodes are written in the same parts in every arena that has them. -/
theorem frame (h : tree.Writes ids parts)
    (hsame : ∀ part ∈ parts, after.node? part.1 = tree.node? part.1) : after.Writes ids parts := by
  induction h with
  | nil => exact .nil
  | leaf hn hc hs _ ih =>
    obtain ⟨hid, hlater⟩ := List.forall_mem_cons.mp hsame
    exact .leaf (hid.trans hn) hc hs (ih hlater)
  | node hn hc hs _ _ ihc ihn =>
    obtain ⟨hid, hsame⟩ := List.forall_mem_cons.mp hsame
    obtain ⟨hinside, hsame⟩ := List.forall_mem_append.mp hsame
    exact .node (hid.trans hn) hc hs (ihc hinside) (ihn (List.forall_mem_cons.mp hsame).2)

/-- Copies are written as their originals are. -/
theorem mirrors (h : source.Writes ids parts) (hm : Mirrors source after floor parent ids new) :
    ∃ copied, after.Writes new copied ∧ copied.map Prod.snd = parts.map Prod.snd ∧
      ∀ part ∈ copied, floor ≤ part.1 := by
  induction h generalizing parent new with
  | nil => exact ⟨[], hm.eq_nil ▸ .nil, rfl, by simp⟩
  | leaf hn hc hs _ ih =>
    cases hm with
    | cons hn' hfloor hcopy _ hrest =>
      cases hn.symm.trans hn'
      obtain ⟨later, hlater, htexts, hbelow⟩ := ih hrest
      exact ⟨_, .leaf hcopy hc hs hlater, by simp [htexts],
        List.forall_mem_cons.mpr ⟨hfloor, hbelow⟩⟩
  | node hn hc hs _ _ ihc ihn =>
    cases hm with
    | cons hn' hfloor hcopy hchildren hrest =>
      cases hn.symm.trans hn'
      obtain ⟨inside, hinside, hin, hinner⟩ := ihc hchildren
      obtain ⟨later, hlater, hout, houter⟩ := ihn hrest
      refine ⟨_, .node hcopy hc hs hinside hlater, by simp [hin, hout], ?_⟩
      exact List.forall_mem_cons.mpr ⟨hfloor, List.forall_mem_append.mpr
        ⟨hinner, List.forall_mem_cons.mpr ⟨hfloor, houter⟩⟩⟩

end Writes

/-- Nodes that hold a forest are written as the forest is, each part for one of them or a node below
them. -/
theorem Lists.writes (h : tree.Lists parent ids forest all) :
    ∃ parts, tree.Writes ids parts ∧ partsText parts = forest.markup ∧
      ∀ part ∈ parts, part.1 ∈ all := by
  induction h with
  | nil => exact ⟨[], .nil, rfl, by simp⟩
  | @cons parent id node content rest inner others children next hn hc hp _ _ ihc ihn =>
    obtain ⟨inside, hinside, htext, hin⟩ := ihc
    obtain ⟨later, hlater, hrest, hout⟩ := ihn
    have outer : ∀ part ∈ later, part.1 ∈ id :: (inner ++ others) := fun part hm =>
      List.mem_cons_of_mem _ (List.mem_append_right _ (hout part hm))
    cases hs : content.showsChildren with
    | false =>
      refine ⟨_, .leaf hn hc hs hlater, ?_,
        List.forall_mem_cons.mpr ⟨List.mem_cons_self, outer⟩⟩
      rw [Forest.markup_node, ← hrest]
      simp [partsText, hs]
    | true =>
      refine ⟨_, .node hn hc hs hinside hlater, ?_, List.forall_mem_cons.mpr
        ⟨List.mem_cons_self, List.forall_mem_append.mpr ⟨fun part hm => ?_,
          List.forall_mem_cons.mpr ⟨List.mem_cons_self, outer⟩⟩⟩⟩
      · rw [Forest.markup_node, ← hrest, ← htext]
        simp [partsText, hs]
      · exact List.mem_cons_of_mem _ (List.mem_append_left _ (hin part hm))

/-- What is below a node comes after it. -/
theorem Linked.lt_of_writes (h : tree.Linked []) (hw : tree.Writes ids parts)
    (hids : ∀ id ∈ ids, parent < id) : ∀ part ∈ parts, parent < part.1 := by
  induction hw generalizing parent with
  | nil => simp
  | leaf _ _ _ _ ih =>
    obtain ⟨hid, hrest⟩ := List.forall_mem_cons.mp hids
    exact List.forall_mem_cons.mpr ⟨hid, ih hrest⟩
  | node hn _ _ _ _ ihc ihn =>
    obtain ⟨hid, hrest⟩ := List.forall_mem_cons.mp hids
    have inside := ihc fun k hk => Nat.lt_trans hid (h.child hn k hk).1
    exact List.forall_mem_cons.mpr ⟨hid, List.forall_mem_append.mpr
      ⟨inside, List.forall_mem_cons.mpr ⟨hid, ihn hrest⟩⟩⟩

theorem Linked.mapM_partsBelow? (h : tree.Linked []) (hw : tree.Writes ids parts)
    (hdepth : ∀ part ∈ parts, tree.size ≤ part.1 + depth) :
    ∃ found, ids.mapM (tree.partsBelow? depth) = some found ∧ found.flatten = parts := by
  induction hw generalizing depth with
  | nil => exact ⟨[], rfl, rfl⟩
  | leaf hn hc hs _ ih =>
    obtain ⟨hid, hlater⟩ := List.forall_mem_cons.mp hdepth
    obtain ⟨depth, rfl, _⟩ := exists_deeper hn hid
    obtain ⟨found, hf, hflat⟩ := ih hlater
    rw [List.mapM_cons, partsBelow?, hf]
    simp only [Option.bind_eq_bind, Option.bind_some, hn, hc, hs]
    exact ⟨_, rfl, by simp [hflat]⟩
  | @node id node content rest inside later hn hc hs hchildren _ ihc ihn =>
    obtain ⟨hid, hdepth⟩ := List.forall_mem_cons.mp hdepth
    obtain ⟨_, hdepth⟩ := List.forall_mem_append.mp hdepth
    obtain ⟨depth, rfl, deeper⟩ := exists_deeper hn hid
    have below : ∀ part ∈ inside, tree.size ≤ part.1 + depth := fun part hm =>
      deeper part.1 (h.lt_of_writes hchildren (fun k hk => (h.child hn k hk).1) part hm)
    obtain ⟨inner, hi, hinner⟩ := ihc below
    obtain ⟨found, hf, hflat⟩ := ihn (List.forall_mem_cons.mp hdepth).2
    rw [List.mapM_cons, partsBelow?, hf]
    simp only [Option.bind_eq_bind, Option.bind_some, hn, hc, hs, hi]
    exact ⟨_, rfl, by simp [hflat, hinner]⟩

/-- The parts that nodes are written in are found. -/
theorem Linked.parts?_eq (h : tree.Linked []) (hw : tree.Writes ids parts) :
    tree.parts? ids = some parts := by
  obtain ⟨found, hf, hflat⟩ := h.mapM_partsBelow? hw fun _ _ => Nat.le_add_left ..
  rw [parts?, hf, ← hflat]
  rfl

/-- All nodes are written in the parts that those below the document are written in. -/
theorem Linked.parts?_document (h : tree.Linked []) {document : ArenaNode}
    (hd : tree.node? 0 = some document) (hw : tree.Writes document.children parts) :
    tree.parts? [0] = some parts := by
  obtain ⟨same, hs, hc, _⟩ := h.document
  cases hd.symm.trans hs
  obtain ⟨depth, hsize, deeper⟩ := exists_deeper hd (Nat.le_add_left ..)
  have below : ∀ part ∈ parts, tree.size ≤ part.1 + depth := fun part hm =>
    deeper part.1 (h.lt_of_writes hw (fun k hk => (h.child hd k hk).1) part hm)
  obtain ⟨found, hf, hflat⟩ := h.mapM_partsBelow? hw below
  rw [parts?, List.mapM_cons, hsize, partsBelow?, hd]
  simp only [Option.bind_eq_bind, Option.bind_some, hc, hf, List.mapM_nil]
  exact congrArg some (by simp [hflat])

theorem mapM_map {α β γ : Type} (find : α → Option β) (change : β → γ) (list : List α) :
    list.mapM (fun a => (find a).map change) = (list.mapM find).map (List.map change) := by
  induction list with
  | nil => rfl
  | cons a rest ih =>
    rw [List.mapM_cons, List.mapM_cons, ih]
    cases find a with
    | none => rfl
    | some b => cases rest.mapM find <;> rfl

theorem partsText_flatten (parts : List (List (Nat × Text))) :
    partsText parts.flatten = (parts.map partsText).flatten := by
  induction parts with
  | nil => rfl
  | cons first rest ih => rw [List.flatten_cons, partsText_append, ih]; rfl

/-- The text of a node is that of its parts. -/
theorem markupBelow?_eq_parts (tree : Arena) (depth : Nat) :
    tree.markupBelow? depth = fun id => (tree.partsBelow? depth id).map partsText := by
  induction depth with
  | zero => rfl
  | succ depth ih =>
    funext id
    rw [markupBelow?, partsBelow?, ih]
    cases tree.node? id with
    | none => rfl
    | some node =>
      simp only [Option.bind_eq_bind, Option.bind_some, mapM_map, Option.bind_map]
      rcases node with ⟨_ | content, _, _, children⟩
      · cases children.mapM (tree.partsBelow? depth) with
        | none => rfl
        | some inside => exact congrArg some (partsText_flatten inside).symm
      · dsimp only
        split
        next =>
          cases children.mapM (tree.partsBelow? depth) with
          | none => rfl
          | some inside =>
            refine congrArg some ?_
            rw [List.cons_append, List.append_assoc, ← partsText_flatten]
            show _ = content.opening ++ partsText (inside.flatten ++ _)
            rw [partsText_append]
            simp [partsText]
        next => exact congrArg some (List.append_nil _).symm

theorem markup?_eq_parts (tree : Arena) (id : Nat) :
    tree.markup? id = (tree.parts? [id]).map partsText := by
  rw [markup?, markupBelow?_eq_parts, parts?]
  cases h : tree.partsBelow? tree.size id with
  | none => simp [h]
  | some parts => simp [h]

theorem mapM_markup?_of_parts (h : tree.parts? ids = some parts) :
    ∃ texts, ids.mapM tree.markup? = some texts ∧ texts.flatten = partsText parts := by
  obtain ⟨found, hf, h⟩ := Option.bind_eq_some_iff.mp h
  cases h
  refine ⟨found.map partsText, ?_, (partsText_flatten found).symm⟩
  have same : tree.markup? = fun id => (tree.partsBelow? tree.size id).map partsText :=
    markupBelow?_eq_parts tree tree.size
  rw [same, mapM_map, hf]
  rfl

end Arena

end MarkupTemplate
