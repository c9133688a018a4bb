import MarkupTemplate.Markup.Place
import MarkupTemplate.Proofs.Arena.RunReplacement

namespace MarkupTemplate

namespace Arena

variable {source tree middle after fragment : Arena} {depth parent id : Nat}
  {ids all : List Nat} {node document : ArenaNode} {forest rest : Forest}

theorem Lists.lt_size (h : tree.Lists parent ids forest all) : ∀ k ∈ all, k < tree.size := by
  induction h with
  | nil => simp
  | cons hn _ _ _ _ ihc ihn =>
    refine List.forall_mem_cons.mpr ⟨lt_of_node? hn, fun k hk => ?_⟩
    exact (List.mem_append.mp hk).elim (ihc k) (ihn k)

theorem Lists.subset (h : tree.Lists parent ids forest all) : ∀ id ∈ ids, id ∈ all := by
  induction h with
  | nil => simp
  | cons _ _ _ _ _ _ ihn =>
    refine List.forall_mem_cons.mpr ⟨List.mem_cons_self, fun id hid => ?_⟩
    exact List.mem_cons_of_mem _ (List.mem_append_right _ (ihn id hid))

/-- Nodes hold one forest. -/
theorem Lists.unique {following : Forest} {more : List Nat}
    (h : tree.Lists parent ids forest all) (h' : tree.Lists parent ids following more) :
    forest = following ∧ all = more := by
  induction h generalizing following more with
  | nil =>
    cases h'
    exact ⟨rfl, rfl⟩
  | cons hn hc _ _ _ ihc ihn =>
    cases h' with
    | cons hn' hc' _ hchildren hnext =>
      cases hn.symm.trans hn'
      cases hc.symm.trans hc'
      obtain ⟨rfl, rfl⟩ := ihc hchildren
      obtain ⟨rfl, rfl⟩ := ihn hnext
      exact ⟨rfl, rfl⟩

theorem Holds.unique {following : Forest} (h : tree.Holds forest) (h' : tree.Holds following) :
    forest = following := by
  obtain ⟨document, _, hd, hlists, _⟩ := h
  obtain ⟨_, _, hd', hlists', _⟩ := h'
  cases hd.symm.trans hd'
  exact (hlists.unique hlists').1

/-- Of the nodes next to each other each part holds a part of the forest. -/
theorem Lists.split {later : List Nat} (h : tree.Lists parent (ids ++ later) forest all) :
    ∃ first last inner others, forest = first ++ last ∧ all = inner ++ others ∧
      tree.Lists parent ids first inner ∧ tree.Lists parent later last others := by
  induction ids generalizing forest all with
  | nil => exact ⟨.nil, forest, [], all, rfl, rfl, .nil, h⟩
  | cons id ids ih =>
    cases h with
    | cons hn hc hp hchildren hnext =>
      obtain ⟨first, last, inner, others, rfl, rfl, hfirst, hlast⟩ := ih hnext
      refine ⟨_, last, _, others, rfl, ?_, .cons hn hc hp hchildren hfirst, hlast⟩
      simp

/-- Cutting out what is below a node copies it. -/
theorem Linked.mirrors_childrenFragment (h : tree.Linked []) (hn : tree.node? id = some node) :
    ∃ fragment new, tree.childrenFragment? id = some fragment ∧ fragment.Linked [] ∧
      fragment.node? 0 = some { content := none, children := new } ∧
      Mirrors tree fragment 1 0 node.children new := by
  obtain ⟨fragment, hf, hl⟩ := h.childrenFragment hn
  obtain ⟨forest, all, hlists⟩ := h.exists_lists (h.child hn)
  have cut := hf
  rw [childrenFragment?, hn] at cut
  have root : ({} : Arena).node? 0 = some { content := none } := rfl
  obtain ⟨new, hroot, copied⟩ := hlists.copies root cut
  exact ⟨fragment, new, hf, hl, hroot, copied.mirrors⟩

/-- Adding a fragment after all nodes. -/
theorem Holds.appendFragment (h : tree.Holds forest) (hf : fragment.Holds rest)
    (ha : tree.appendFragment? fragment = some after) : after.Holds (forest ++ rest) := by
  obtain ⟨document, all, hd, hlists, hall⟩ := h
  obtain ⟨top, more, htop, htopLists, _⟩ := hf
  rw [appendFragment?, htop] at ha
  obtain ⟨new, hroot, copied⟩ := htopLists.copies hd ha
  obtain ⟨added, hadded, hnew⟩ := copied.mirrors.lists htopLists
  refine ⟨_, all ++ added, hroot, .append (hlists.frame fun k hk => ?_) hadded, fun k hk => ?_⟩
  · exact copied.old (hlists.lt_size k hk) (Nat.ne_of_lt (hall k hk))
  · refine (List.mem_append.mp hk).elim (hall k) fun hm => ?_
    exact Nat.lt_of_lt_of_le (Nat.zero_lt_of_lt (lt_of_node? hd)) (hnew k hm)

theorem size_of_orphans (h : ids.foldlM orphan? tree = some after) : after.size = tree.size := by
  induction ids generalizing tree with
  | nil =>
    cases h
    rfl
  | cons id rest ih =>
    rw [List.foldlM_cons] at h
    obtain ⟨middle, hm, h⟩ := Option.bind_eq_some_iff.mp h
    exact (ih h).trans (updated_of_update? hm).size

/-- Putting a fragment in the place of all nodes. -/
theorem Holds.replaceDocument (hf : fragment.Holds rest)
    (ha : tree.replaceDocument? fragment = some after) : after.Holds rest := by
  obtain ⟨document, hd, ha⟩ := Option.bind_eq_some_iff.mp ha
  obtain ⟨emptied, hemptied, ha⟩ := Option.bind_eq_some_iff.mp ha
  obtain ⟨middle, hmiddle, ha⟩ := Option.bind_eq_some_iff.mp ha
  obtain ⟨⟨new, next⟩, hgraft, ha⟩ := Option.bind_eq_some_iff.mp ha
  have hu := updated_of_update? ha
  have hpos : 0 < middle.size := by
    rw [size_of_orphans hmiddle, (updated_of_update? hemptied).size]
    exact lt_of_node? hd
  obtain ⟨top, all, htop, htopLists, _⟩ := hf
  rw [graftTop?, htop] at hgraft
  obtain ⟨_, copied⟩ := htopLists.graftedAll hpos hgraft
  obtain ⟨root, hroot⟩ := node?_of_update? ha
  obtain ⟨all, hlists, hall⟩ := (copied.updated hpos hu).mirrors.lists htopLists
  exact ⟨_, all, hu.self hroot, hlists, fun k hk => Nat.lt_of_lt_of_le hpos (hall k hk)⟩

theorem Lists.has_parent (h : tree.Lists parent ids forest all) :
    ∀ k ∈ all, ∃ node owner, tree.node? k = some node ∧ node.parent = some owner := by
  induction h with
  | nil => simp
  | cons hn _ hp _ _ ihc ihn =>
    refine List.forall_mem_cons.mpr ⟨⟨_, _, hn, hp⟩, fun k hk => ?_⟩
    exact (List.mem_append.mp hk).elim (ihc k) (ihn k)

theorem Lists.parent_of_mem (h : tree.Lists parent ids forest all) :
    ∀ k ∈ ids, ∃ node, tree.node? k = some node ∧ node.parent = some parent := by
  induction h with
  | nil => simp
  | cons hn _ hp _ _ _ ihn => exact List.forall_mem_cons.mpr ⟨⟨_, hn, hp⟩, ihn⟩

theorem Linked.lt_of_lists (h : tree.Linked []) (hl : tree.Lists parent ids forest all) :
    ∀ k ∈ all, parent < k := by
  induction hl with
  | nil => simp
  | cons hn _ hp _ _ ihc ihn =>
    obtain ⟨owner, ho, hm⟩ := h.listed hn hp List.not_mem_nil
    have hlt := (h.child ho _ hm).1
    refine List.forall_mem_cons.mpr ⟨hlt, fun k hk => ?_⟩
    exact (List.mem_append.mp hk).elim (fun hk => Nat.lt_trans hlt (ihc k hk)) (ihn k)

/-- A node occurs below others as often as its parent does, and once more if it is one of them. -/
theorem Lists.count_all {k owner : Nat} (h : tree.Lists parent ids forest all)
    (hk : ∀ {q : Nat} {found : ArenaNode}, tree.node? q = some found →
      found.children.count k = if q = owner then 1 else 0) :
    all.count k = ids.count k + all.count owner := by
  induction h with
  | nil => rfl
  | cons hn _ _ _ _ ihc ihn =>
    simp only [List.count_cons, List.count_append, ihc, ihn, hk hn, beq_iff_eq]
    omega

/-- No node occurs twice below others. -/
theorem Linked.nodup_of_lists (h : tree.Linked []) (hl : tree.Lists parent ids forest all)
    (hids : ids.Nodup) : all.Nodup := by
  refine List.nodup_iff_count.mpr fun k => ?_
  induction k using Nat.strongRecOn with
  | ind k ih =>
    by_cases hm : k ∈ all
    · obtain ⟨node, owner, hn, hp⟩ := hl.has_parent k hm
      obtain ⟨above, ho, hk⟩ := h.listed hn hp List.not_mem_nil
      have hcount {q : Nat} {found : ArenaNode} (hq : tree.node? q = some found) :
          found.children.count k = if q = owner then 1 else 0 := by
        rw [(h.nodup hq).count]
        by_cases he : q = owner
        · subst he
          cases ho.symm.trans hq
          simp [hk]
        · have hnot : k ∉ found.children := fun hm' => he (h.owner_unique ho hk hq hm')
          simp [he, hnot]
      rw [hl.count_all hcount]
      by_cases htop : k ∈ ids
      · obtain ⟨same, hs, hsp⟩ := hl.parent_of_mem k htop
        cases hn.symm.trans hs
        cases hp.symm.trans hsp
        have hno : parent ∉ all := fun hm => Nat.lt_irrefl parent (h.lt_of_lists hl parent hm)
        rw [List.count_eq_zero_of_not_mem hno]
        exact List.nodup_iff_count.mp hids k
      · rw [List.count_eq_zero_of_not_mem htop, Nat.zero_add]
        exact ih owner (h.child ho k hk).1
    · rw [List.count_eq_zero_of_not_mem hm]
      exact Nat.zero_le 1

/-- The end of a way in an arena: some of the children of a node. When they are changed and all
around stays, the arena holds the forest with the change. -/
structure Inside (tree : Arena) (way : List Frame) (forest : Forest) (parent : Nat)
    (node : ArenaNode) (before ids all : List Nat) : Prop where
  owner : tree.node? parent = some node
  children : node.children = before ++ ids
  lists : tree.Lists parent ids forest all
  nodup : (parent :: all).Nodup
  pos : ∀ k ∈ all, 0 < k
  holds (ids' : List Nat) {after : Arena} {forest' : Forest} {all' : List Nat} :
    (∀ k < tree.size, k ∉ parent :: all → after.node? k = tree.node? k) →
    after.node? parent = some { node with children := before ++ ids' } →
    after.Lists parent ids' forest' all' → (∀ k ∈ all', 0 < k) → after.Holds (plug forest' way)

/-- All nodes are at the end of the way that takes no step. -/
theorem Linked.inside (h : tree.Linked []) (hd : tree.node? 0 = some document)
    (hlists : tree.Lists 0 document.children forest all) (hpos : ∀ k ∈ all, 0 < k) :
    Inside tree [] forest 0 document [] document.children all := by
  constructor
  case owner => exact hd
  case children => rfl
  case lists => exact hlists
  case nodup =>
    exact List.nodup_cons.mpr
      ⟨fun hm => Nat.lt_irrefl 0 (hpos 0 hm), h.nodup_of_lists hlists (h.nodup hd)⟩
  case pos => exact hpos
  case holds =>
    intro ids' after forest' all' _ hroot hlists' hpos'
    exact ⟨_, all', hroot, hlists', hpos'⟩

namespace Inside

variable {way : List Frame} {content : Content} {children next : Forest} {before rest : List Nat}

/-- A step past a node. -/
theorem past
    (hi : Inside tree way (.node content children next) parent node before (id :: rest) all) :
    ∃ others, Inside tree (.past content children :: way) next parent node (before ++ [id]) rest
      others := by
  have hnodup := hi.nodup
  have hpos := hi.pos
  have hlt := hi.lists.lt_size
  cases hi.lists with
  | @cons _ _ found _ _ inner others _ _ hn hc hp hchildren hnext =>
    simp only [List.nodup_cons, List.nodup_append, List.mem_cons, List.mem_append,
      not_or] at hnodup hpos hlt
    obtain ⟨⟨hpid, hpi, hpo⟩, ⟨hii, hio⟩, _, hothers, hapart⟩ := hnodup
    refine ⟨others, hi.owner, by simpa using hi.children, hnext,
      List.nodup_cons.mpr ⟨hpo, hothers⟩, fun k hk => hpos k (.inr (.inr hk)), ?_⟩
    intro ids' after forest' all' hsame howner hlists' hpos'
    have hid := hsame id (hlt id (.inl rfl)) (by simp [Ne.symm hpid, hio])
    have hinner : after.Lists id found.children children inner := by
      refine hchildren.frame fun k hk => hsame k (hlt k (.inr (.inl hk))) ?_
      simp only [List.mem_cons, not_or]
      exact ⟨fun he => hpi (he ▸ hk), fun ho => hapart k hk k ho rfl⟩
    refine hi.holds (id :: ids') (fun k hk hout => hsame k hk ?_)
      (by simpa using howner) (.cons (hid.trans hn) hc hp hinner hlists') ?_
    · simp only [List.mem_cons, List.mem_append, not_or] at hout ⊢
      exact ⟨hout.1, hout.2.2.2⟩
    · simp only [List.mem_cons, List.mem_append]
      rintro k (rfl | hk | hk)
      · exact hpos _ (.inl rfl)
      · exact hpos k (.inr (.inl hk))
      · exact hpos' k hk

/-- A step into a node. -/
theorem into
    (hi : Inside tree way (.node content children next) parent node before (id :: rest) all) :
    ∃ found inner, Inside tree (.into content next :: way) children id found [] found.children
      inner := by
  have hnodup := hi.nodup
  have hpos := hi.pos
  have hlt := hi.lists.lt_size
  cases hi.lists with
  | @cons _ _ found _ _ inner others _ _ hn hc hp hchildren hnext =>
    simp only [List.nodup_cons, List.nodup_append, List.mem_cons, List.mem_append,
      not_or] at hnodup hpos hlt
    obtain ⟨⟨hpid, hpi, hpo⟩, ⟨hii, hio⟩, hinner, _, hapart⟩ := hnodup
    refine ⟨found, inner, hn, rfl, hchildren, List.nodup_cons.mpr ⟨hii, hinner⟩,
      fun k hk => hpos k (.inr (.inl hk)), ?_⟩
    intro ids' after forest' all' hsame howner hlists' hpos'
    have hsameOwner := hsame parent (lt_of_node? hi.owner) (by simp [hpid, hpi])
    have hrest : after.Lists parent rest next others := by
      refine hnext.frame fun k hk => hsame k (hlt k (.inr (.inr hk))) ?_
      simp only [List.mem_cons, not_or]
      exact ⟨fun he => hio (he ▸ hk), fun hm => hapart k hm k hk rfl⟩
    refine hi.holds (id :: rest) (fun k hk hout => hsame k hk ?_) ?_
      (.cons howner hc hp hlists' hrest) ?_
    · simp only [List.mem_cons, List.mem_append, not_or] at hout ⊢
      exact ⟨hout.2.1, hout.2.2.1⟩
    · rw [hsameOwner, hi.owner, ← hi.children]
    · simp only [List.mem_cons, List.mem_append]
      rintro k (rfl | hk | hk)
      · exact hpos _ (.inl rfl)
      · exact hpos' k hk
      · exact hpos k (.inr (.inr hk))

end Inside

/-- Taking out a node changes that node and its parent. -/
theorem Detached.old {k : Nat} (hd : Detached tree after [id]) (h : tree.Linked [])
    (hn : tree.node? parent = some node) (hm : id ∈ node.children) (hp : k ≠ parent)
    (hk : k ≠ id) : after.node? k = tree.node? k := by
  rw [hd.other h hn (List.forall_mem_singleton.mpr hm) hp]
  simp [hk]

section Edits

variable {way : List Frame} {owner : ArenaNode} {first last : Forest}
  {before run later new inner others : List Nat}

/-- Replacing nodes next to each other replaces what they hold. -/
theorem Replaced.holds {origin : Nat} {new : List Nat} {copied : List Nat}
    (hr : Replaced tree after parent owner before run later source ids new)
    (hi : Inside tree way forest parent owner before (run ++ later) all)
    (hlater : tree.Lists parent later last others) (hids : source.Lists origin ids rest copied) :
    after.Holds (plug (rest ++ last) way) := by
  obtain ⟨first, last', inner, others', rfl, rfl, hrun, hlater'⟩ := hi.lists.split
  obtain ⟨rfl, rfl⟩ := hlater.unique hlater'
  obtain ⟨hparent, _, _, apart⟩ := by
    simpa only [List.nodup_cons, List.nodup_append] using hi.nodup
  have hothers : ∀ k ∈ others, k ≠ parent ∧ k ∉ run := fun k hk =>
    ⟨fun he => hparent (he ▸ List.mem_append_right _ hk),
      fun hm => apart k (hrun.subset k hm) k hk rfl⟩
  obtain ⟨more, hmore, hnew⟩ := hr.copies.lists hids
  refine hi.holds (new ++ later) (fun k hk hout => ?_) ?_
    (hmore.append (hlater.frame fun k hk => ?_)) fun k hk => ?_
  · simp only [List.mem_cons, List.mem_append, not_or] at hout
    exact hr.old hk hout.1 fun hm => hout.2.1 (hrun.subset k hm)
  · rw [hr.owner, List.append_assoc]
  · exact hr.old (hlater.lt_size k hk) (hothers k hk).1 (hothers k hk).2
  · refine (List.mem_append.mp hk).elim (fun hk => ?_) fun hk => hi.pos k (by simp [hk])
    exact Nat.lt_of_lt_of_le (Nat.zero_lt_of_lt (lt_of_node? hi.owner)) (hnew k hk)

/-- Taking out a node takes out what it holds. -/
theorem Inside.detach {content : Content} {children next : Forest} (h : tree.Linked [])
    (hi : Inside tree way (.node content children next) parent owner before (id :: later) all) :
    ∃ after, tree.detach? id = some after ∧ Detached tree after [id] ∧
      after.Holds (plug next way) := by
  have hnodup := hi.nodup
  cases hi.lists with
  | cons hn hc hp _ hnext =>
    simp only [List.nodup_cons, List.mem_cons, List.mem_append, not_or] at hnodup
    obtain ⟨⟨hpid, _, hpo⟩, ⟨_, hio⟩, _⟩ := hnodup
    have hm : id ∈ owner.children := by simp [hi.children]
    have hrun : (before ++ [id] ++ later).Nodup := by
      have hall := h.nodup hi.owner
      rwa [hi.children, List.append_cons] at hall
    obtain ⟨after, ha, hd⟩ := h.detach hn
    refine ⟨after, ha, hd, hi.holds later (fun k _ hout => ?_) ?_
      (hnext.frame fun k hk => ?_) fun k hk => hi.pos k (by simp [hk])⟩
    · simp only [List.mem_cons, not_or] at hout
      exact hd.old h hi.owner hm hout.1 hout.2.1
    · rw [hd.node, hi.owner, Option.map_some, hi.children, List.append_cons, foldl_erase_run hrun]
      simp [hpid]
    · exact hd.old h hi.owner hm (fun he => hpo (he ▸ hk)) fun he => hio (he ▸ hk)

/-- Replacing a node replaces what it holds. -/
theorem Inside.replace {content : Content} {children next : Forest} (h : tree.Linked [])
    (hi : Inside tree way (.node content children next) parent owner before (id :: later) all)
    (hf : fragment.Linked []) (hh : fragment.Holds rest) :
    ∃ top new after, fragment.node? 0 = some top ∧ tree.replace? id fragment = some after ∧
      Replaced tree after parent owner before [id] later fragment top.children new ∧
      after.Holds (plug (rest ++ next) way) := by
  cases hi.lists with
  | cons _ _ _ _ hnext =>
    have hsplit : owner.children = before ++ [id] ++ later := by
      rw [hi.children, List.append_cons]
    obtain ⟨top, new, after, htop, ha, hr⟩ :=
      h.replaced hf hi.owner hsplit (List.cons_ne_nil id [])
    obtain ⟨top', _, htop', hlists, _⟩ := hh
    cases htop.symm.trans htop'
    exact ⟨top, new, after, htop, ha, hr, hr.holds hi hnext hlists⟩

end Edits

end Arena

end MarkupTemplate
