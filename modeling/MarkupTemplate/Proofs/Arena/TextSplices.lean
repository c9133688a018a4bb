import MarkupTemplate.Proofs.Arena.WrittenParts

namespace MarkupTemplate

namespace Arena

variable {tree after fragment : Arena} {way : List Frame} {parent id : Nat} {owner : ArenaNode}
  {before run later rest ids all : List Nat} {content : Content} {forest children next : Forest}
  {ahead inside behind parts : List (Nat × Text)}

/-- The parts before and behind some of the children of a node. When these are changed and all
around stays, the parts that the new ones are written in stand in between. -/
structure Between (tree : Arena) (parent : Nat) (owner : ArenaNode) (before all : List Nat)
    (ahead behind : List (Nat × Text)) : Prop where
  apart : ∀ part ∈ ahead ++ behind, part.1 ∉ all
  writes {after : Arena} {ids : List Nat} {parts : List (Nat × Text)} :
    (∀ k < tree.size, k ∉ parent :: all → after.node? k = tree.node? k) →
    after.node? parent = some { owner with children := before ++ ids } → after.Writes ids parts →
    ∃ document, after.node? 0 = some document ∧
      after.Writes document.children (ahead ++ parts ++ behind)

/-- The first node at the end of a way, what is below it, and what comes after it are apart. -/
theorem Inside.first
    (hi : Inside tree way (.node content children next) parent owner before (id :: rest) all) :
    ∃ node inner others, all = id :: (inner ++ others) ∧ tree.node? id = some node ∧
      node.content = some content ∧ node.parent = some parent ∧
      tree.Lists id node.children children inner ∧ tree.Lists parent rest next others ∧
      parent ∉ id :: (inner ++ others) ∧ id ∉ inner ++ others ∧ ∀ k ∈ inner, k ∉ others := by
  have hnodup := hi.nodup
  cases hi.lists with
  | cons hn hc hp hchildren hnext =>
    obtain ⟨hparent, hall⟩ := List.nodup_cons.mp hnodup
    obtain ⟨hid, hall⟩ := List.nodup_cons.mp hall
    refine ⟨_, _, _, rfl, hn, hc, hp, hchildren, hnext, hparent, hid, fun k hk ho => ?_⟩
    exact (List.nodup_append.mp hall).2.2 k hk k ho rfl

namespace Between

/-- What is passed is written ahead. -/
theorem past
    (hi : Inside tree way (.node content children next) parent owner before (id :: rest) all)
    (hb : Between tree parent owner before all ahead behind) :
    ∃ others shown, Inside tree (.past content children :: way) next parent owner (before ++ [id])
        rest others ∧
      Between tree parent owner (before ++ [id]) others (ahead ++ shown) behind := by
  obtain ⟨_, hpast⟩ := hi.past
  have hlt := hi.lists.lt_size
  obtain ⟨node, inner, others, rfl, hn, hc, hp, hchildren, hnext, hparent, hid, apart⟩ := hi.first
  obtain ⟨_, rfl⟩ := hnext.unique hpast.lists
  obtain ⟨shown, hshown, _, hmem⟩ := (Lists.single hn hc hp hchildren).writes
  have own : ∀ part ∈ shown, part.1 ∈ id :: (inner ++ others) ∧ part.1 ∉ others := by
    intro part hm
    rcases List.mem_cons.mp (hmem part hm) with he | hin
    · exact ⟨by simp [he], fun ho => hid (List.mem_append_right _ (he ▸ ho))⟩
    · exact ⟨by simp [hin], apart _ hin⟩
  refine ⟨others, shown, hpast, fun part hm => ?_, fun {after ids parts} hsame howner hw => ?_⟩
  · simp only [List.mem_append] at hm
    rcases hm with (hm | hm) | hm
    · exact fun ho => hb.apart part (List.mem_append_left _ hm) (by simp [ho])
    · exact (own part hm).2
    · exact fun ho => hb.apart part (List.mem_append_right _ hm) (by simp [ho])
  · have shows := hshown.frame fun part hm => hsame part.1 (hlt _ (own part hm).1) <|
      List.not_mem_cons_of_ne_of_not_mem (fun he => hparent (he ▸ (own part hm).1)) (own part hm).2
    have hchildren : after.node? parent = some { owner with children := before ++ id :: ids } := by
      simpa using howner
    have hframe : ∀ k < tree.size, k ∉ parent :: id :: (inner ++ others) →
        after.node? k = tree.node? k := fun k hk hout => hsame k hk fun hm =>
      hout (List.mem_cons.mpr ((List.mem_cons.mp hm).imp_right (by simp +contextual)))
    obtain ⟨document, hd, whole⟩ := hb.writes hframe hchildren (shows.append hw)
    exact ⟨document, hd, by simpa using whole⟩

/-- What is entered is written around: its start tag ahead, its end tag and what comes after it
behind. -/
theorem into (h : tree.Linked [])
    (hi : Inside tree way (.node content children next) parent owner before (id :: rest) all)
    (hb : Between tree parent owner before all ahead behind) {node : ArenaNode}
    (hn : tree.node? id = some node) (hne : node.children ≠ []) :
    ∃ inner ahead behind, Inside tree (.into content next :: way) children id node []
        node.children inner ∧ Between tree id node [] inner ahead behind := by
  obtain ⟨found, _, hinto⟩ := hi.into
  cases hn.symm.trans hinto.owner
  have hlt := hi.lists.lt_size
  have howned := hi.owner
  have hsplit := hi.children
  obtain ⟨_, inner, others, rfl, hn', hc, _, hchildren, hnext, hparent, hid, apart⟩ := hi.first
  cases hn.symm.trans hn'
  obtain ⟨_, rfl⟩ := hchildren.unique hinto.lists
  have shows : content.showsChildren = true := by
    have takes : node.takesChildren = true := by
      cases ht : node.takesChildren with
      | true => rfl
      | false => exact absurd (h.leaf hn ht) hne
    rwa [ArenaNode.takesChildren, hc] at takes
  have hin : id ∉ inner := fun hm => hid (List.mem_append_left _ hm)
  obtain ⟨shown, hshown, _, hmem⟩ := hnext.writes
  have later : ∀ part ∈ shown, part.1 ∈ id :: (inner ++ others) ∧ part.1 ∉ id :: inner :=
    fun part hm => ⟨by simp [hmem part hm], List.not_mem_cons_of_ne_of_not_mem
      (fun he => hid (List.mem_append_right _ (he ▸ hmem part hm)))
      fun ho => apart _ ho (hmem part hm)⟩
  refine ⟨inner, ahead ++ [(id, content.opening)],
    (id, content.closing) :: (shown ++ behind), hinto, fun part hm => ?_,
    fun {after ids parts} hsame hroot hw => ?_⟩
  · simp only [List.mem_append, List.mem_cons, List.not_mem_nil, or_false] at hm
    rcases hm with (hm | rfl) | rfl | hm | hm
    · exact fun ho => hb.apart part (List.mem_append_left _ hm) (by simp [ho])
    · exact hin
    · exact hin
    · exact fun ho => (later part hm).2 (List.mem_cons_of_mem _ ho)
    · exact fun ho => hb.apart part (List.mem_append_right _ hm) (by simp [ho])
  · have hrest := hshown.frame fun part hm =>
      hsame part.1 (hlt _ (later part hm).1) (later part hm).2
    have howner : after.node? parent = some { owner with children := before ++ id :: rest } := by
      rw [hsame parent (lt_of_node? howned) (fun hm => hparent ?_), howned, ← hsplit]
      exact List.mem_cons.mpr ((List.mem_cons.mp hm).imp_right (by simp +contextual))
    have hframe : ∀ k < tree.size, k ∉ parent :: id :: (inner ++ others) →
        after.node? k = tree.node? k := fun k hk hout => hsame k hk fun hm =>
      hout (List.mem_cons_of_mem _
        (List.mem_cons.mpr ((List.mem_cons.mp hm).imp_right (by simp +contextual))))
    obtain ⟨document, hd, whole⟩ := hb.writes hframe howner (.node hroot hc shows hw hrest)
    exact ⟨document, hd, by simpa using whole⟩

end Between

/-- Children at the end of a way are written between what is on the way. -/
theorem Leads.between (h : tree.Linked []) (hl : Leads tree way parent before ids forest)
    (hne : ids ≠ []) :
    ∃ owner all ahead behind, Inside tree way forest parent owner before ids all ∧
      Between tree parent owner before all ahead behind := by
  induction hl with
  | document hd hlists hpos =>
    refine ⟨_, _, [], [], h.inside hd hlists hpos, by simp, fun _ hroot hw => ⟨_, hroot, ?_⟩⟩
    simpa using hw
  | past _ ih =>
    obtain ⟨owner, all, ahead, behind, hi, hb⟩ := ih (List.cons_ne_nil _ _)
    obtain ⟨others, shown, hpast, between⟩ := hb.past hi
    exact ⟨owner, others, _, behind, hpast, between⟩
  | into _ hn ih =>
    obtain ⟨owner, all, ahead, behind, hi, hb⟩ := ih (List.cons_ne_nil _ _)
    obtain ⟨inner, ahead, behind, hinto, between⟩ := hb.into h hi hn hne
    exact ⟨_, inner, ahead, behind, hinto, between⟩

/-- A way to children leads on past some of them. -/
theorem Leads.advance (h : tree.Linked []) (hl : Leads tree way parent before (run ++ ids) forest) :
    ∃ way forest, Leads tree way parent (before ++ run) ids forest := by
  induction run generalizing way before forest with
  | nil => exact ⟨way, forest, by simpa using hl⟩
  | cons id run ih =>
    obtain ⟨_, _, hi⟩ := hl.inside h
    cases hi.lists
    obtain ⟨way, forest, hpast⟩ := ih hl.past
    exact ⟨way, forest, by simpa using hpast⟩

/-- A way leads to the children of every attached node. -/
theorem Attached.leads (h : tree.Linked []) (ha : tree.Attached parent)
    (ho : tree.node? parent = some owner) :
    ∃ way forest, Leads tree way parent [] owner.children forest := by
  obtain ⟨forest, hh⟩ := h.exists_holds
  by_cases hid : parent = 0
  · subst hid
    obtain ⟨document, all, hd, hlists, hpos⟩ := hh
    cases ho.symm.trans hd
    exact ⟨[], forest, .document hd hlists hpos⟩
  · obtain ⟨place, ⟨_, _, _, hl⟩, _⟩ := ha.exists_at hh hid
    exact ⟨_, _, .into hl ho⟩

/-- Nodes are written in one piece, and no part before or behind it is one of them or below them. -/
structure Stands (tree : Arena) (run : List Nat) (ahead inside behind : List (Nat × Text)) :
    Prop where
  whole : tree.parts? [0] = some (ahead ++ inside ++ behind)
  own : tree.parts? run = some inside
  apart : ∀ part ∈ ahead ++ behind, part.1 ∉ inside.map Prod.fst

/-- Children of an attached node that stand next to each other are written in one piece. When they
are changed and all around stays, the new ones are written in its place. -/
theorem Linked.stands (h : tree.Linked []) (ha : tree.Attached parent)
    (ho : tree.node? parent = some owner) (hsplit : owner.children = before ++ run ++ later)
    (hne : run ≠ []) :
    ∃ ahead inside behind, tree.Stands run ahead inside behind ∧ inside ≠ [] ∧
      ∀ {after : Arena} {ids : List Nat} {parts : List (Nat × Text)}, after.Linked [] →
        (∀ k < tree.size, k ≠ parent → k ∉ run → after.node? k = tree.node? k) →
        after.node? parent = some { owner with children := before ++ ids ++ later } →
        after.Writes ids parts → after.parts? [0] = some (ahead ++ parts ++ behind) := by
  obtain ⟨_, _, hstart⟩ := ha.leads h ho
  rw [hsplit, List.append_assoc] at hstart
  obtain ⟨way, forest, hl⟩ := hstart.advance h
  obtain ⟨_, all, ahead, behind, hi, hb⟩ := hl.between h (by simp [hne])
  cases ho.symm.trans hi.owner
  obtain ⟨first, last, inner, others, rfl, rfl, hrun, hlater⟩ := hi.lists.split
  obtain ⟨inside, hinside, _, hin⟩ := hrun.writes
  obtain ⟨shown, hshown, _, hout⟩ := hlater.writes
  have hnodup := hi.nodup
  simp only [List.nodup_cons, List.nodup_append, List.mem_append, not_or] at hnodup
  obtain ⟨⟨_, hparent⟩, _, _, apart⟩ := hnodup
  have later_out : ∀ part ∈ shown, part.1 ≠ parent ∧ part.1 ∉ run := fun part hm =>
    ⟨fun he => hparent (he ▸ hout part hm),
      fun hr => apart _ (hrun.subset _ hr) _ (hout part hm) rfl⟩
  refine ⟨ahead, inside, shown ++ behind, ⟨?_, h.parts?_eq hinside, fun part hm hown => ?_⟩,
    ?_, fun {after ids parts} hl hsame howner hw => ?_⟩
  · have same : tree.node? parent =
        some { owner with children := [] ++ before ++ (run ++ later) } := by
      rw [ho, ← hi.children]
    obtain ⟨document, hd, whole⟩ := hb.writes (fun _ _ _ => rfl) same (hinside.append hshown)
    rw [h.parts?_document hd whole]
    simp
  · obtain ⟨other, ho', he⟩ := List.mem_map.mp hown
    have hinner : part.1 ∈ inner := he ▸ hin other ho'
    simp only [List.mem_append] at hm
    rcases hm with hm | hm | hm
    · exact hb.apart part (List.mem_append_left _ hm) (List.mem_append_left _ hinner)
    · exact apart _ hinner _ (hout part hm) rfl
    · exact hb.apart part (List.mem_append_right _ hm) (List.mem_append_left _ hinner)
  · rintro rfl
    cases hinside
    exact hne rfl
  · have hrest := hshown.frame fun part hm => hsame part.1
      (hlater.lt_size _ (hout part hm)) (later_out part hm).1 (later_out part hm).2
    have hparent : after.node? parent =
        some { owner with children := [] ++ before ++ (ids ++ later) } := by
      rw [howner]
      simp
    have hframe : ∀ k < tree.size, k ∉ parent :: (inner ++ others) →
        after.node? k = tree.node? k := fun k hk hout => hsame k hk
      (fun he => hout (he ▸ List.mem_cons_self))
      (fun hr => hout (List.mem_cons_of_mem _ (List.mem_append_left _ (hrun.subset _ hr))))
    obtain ⟨document, hd, whole⟩ := hb.writes hframe hparent (hw.append hrest)
    rw [hl.parts?_document hd whole]
    simp

/-- Nodes that are written at all stand in one place only. -/
theorem Stands.unique {ahead' behind' : List (Nat × Text)}
    (h : tree.Stands run ahead inside behind) (h' : tree.Stands run ahead' inside behind')
    (hne : inside ≠ []) : ahead' = ahead ∧ behind' = behind := by
  obtain ⟨part, rest, rfl⟩ := List.exists_cons_of_ne_nil hne
  have same := Option.some.inj (h.whole.symm.trans h'.whole)
  rw [List.append_assoc, List.append_assoc] at same
  -- If one of the two places were further on, its first part would stand ahead of the other.
  rcases List.append_eq_append_iff.mp same with ⟨more, hahead, hrest⟩ | ⟨more, hahead, hrest⟩
  · cases more with
    | nil =>
      rw [List.append_nil] at hahead
      exact ⟨hahead, (List.append_cancel_left hrest).symm⟩
    | cons first more =>
      obtain rfl := (List.cons.inj hrest).1
      exact absurd (by simp) (h'.apart part (by simp [hahead]))
  · cases more with
    | nil =>
      rw [List.append_nil] at hahead
      exact ⟨hahead.symm, List.append_cancel_left hrest⟩
    | cons first more =>
      obtain rfl := (List.cons.inj hrest).1
      exact absurd (by simp) (h.apart part (by simp [hahead]))

theorem Stands.markup? (h : tree.Stands run ahead inside behind) :
    ∃ texts, run.mapM tree.markup? = some texts ∧
      tree.markup? 0 = some (partsText ahead ++ texts.flatten ++ partsText behind) := by
  obtain ⟨texts, ht, hflat⟩ := mapM_markup?_of_parts h.own
  refine ⟨texts, ht, ?_⟩
  rw [markup?_eq_parts, h.whole, hflat, Option.map_some, partsText_append, partsText_append]

/-- What takes the place of nodes is written where they were. -/
theorem Stands.splice (stands : tree.Stands run ahead inside behind) (h : tree.Linked [])
    (ha : tree.Attached parent) (ho : tree.node? parent = some owner)
    (hsplit : owner.children = before ++ run ++ later) (hne : run ≠ []) (hl : after.Linked [])
    (hsame : ∀ k < tree.size, k ≠ parent → k ∉ run → after.node? k = tree.node? k)
    (howner : after.node? parent = some { owner with children := before ++ ids ++ later })
    (hw : after.Writes ids parts) : after.parts? [0] = some (ahead ++ parts ++ behind) := by
  obtain ⟨_, _, _, own, present, splice⟩ := h.stands ha ho hsplit hne
  cases own.own.symm.trans stands.own
  obtain ⟨rfl, rfl⟩ := own.unique stands present
  exact splice hl hsame howner hw

/-- Siblings can be replaced, and what takes their place is written as the fragment is. -/
theorem Stands.replaceRun (stands : tree.Stands run ahead inside behind) (h : tree.Linked [])
    (hf : fragment.Linked []) (ha : tree.Attached parent) (ho : tree.node? parent = some owner)
    (hsplit : owner.children = before ++ run ++ later) (hne : run ≠ []) :
    ∃ inserted copied top new after, fragment.markup? 0 = some inserted ∧
      tree.replaceRun? run fragment = some after ∧
      after.markup? 0 = some (partsText ahead ++ inserted ++ partsText behind) ∧
      after.parts? [0] = some (ahead ++ copied ++ behind) ∧
      (∀ part ∈ copied, tree.size ≤ part.1) ∧ fragment.node? 0 = some top ∧
      Replaced tree after parent owner before run later fragment top.children new := by
  obtain ⟨top, new, after, htop, hreplace, hr⟩ := h.replaced hf ho hsplit hne
  obtain ⟨_, _, hlists⟩ := hf.exists_lists (hf.child htop)
  obtain ⟨inserted, hinserted, _⟩ := hlists.writes
  obtain ⟨copied, hcopied, htexts, hnew⟩ := hinserted.mirrors hr.copies
  have whole := stands.splice h ha ho hsplit hne hr.linked (fun _ => hr.old) hr.owner hcopied
  refine ⟨partsText inserted, copied, top, new, after, ?_, hreplace, ?_, whole, hnew, htop, hr⟩
  · rw [markup?_eq_parts, hf.parts?_document htop hinserted, Option.map_some]
  · rw [markup?_eq_parts, whole, Option.map_some, partsText_append, partsText_append,
      partsText_congr htexts]

/-- Nodes without a parent are not attached. -/
theorem Linked.not_attached {node : ArenaNode} (h : tree.Linked []) (hn : tree.node? id = some node)
    (hp : node.parent = none) (hid : id ≠ 0) : ¬ tree.Attached id := by
  intro ha
  cases ha with
  | document => exact hid rfl
  | child _ ho hm =>
    obtain ⟨_, same, hs, hparent⟩ := h.child ho id hm
    cases hn.symm.trans hs
    cases hp.symm.trans hparent

/-- Replacing siblings that stand next to each other replaces the piece of the text that they are
written in by the text of the fragment. They are not attached any more, copies of the nodes of the
fragment stand in their place, and all other nodes stay as they were, in their order. -/
theorem replaceRun?_splices (h : tree.Sound) (hf : fragment.Sound) (ha : tree.Attached parent)
    (ho : tree.node? parent = some owner) (hsplit : owner.children = before ++ run ++ later)
    (hne : run ≠ []) :
    (∃ ahead inside behind, tree.Stands run ahead inside behind) ∧
      ∀ {ahead inside behind : List (Nat × Text)}, tree.Stands run ahead inside behind →
        ∃ texts inserted copied top new after,
          run.mapM tree.markup? = some texts ∧ fragment.markup? 0 = some inserted ∧
          tree.markup? 0 = some (partsText ahead ++ texts.flatten ++ partsText behind) ∧
          tree.replaceRun? run fragment = some after ∧
          after.markup? 0 = some (partsText ahead ++ inserted ++ partsText behind) ∧
          after.parts? [0] = some (ahead ++ copied ++ behind) ∧
          (∀ part ∈ copied, tree.size ≤ part.1) ∧ fragment.node? 0 = some top ∧
          Replaced tree after parent owner before run later fragment top.children new ∧
          ∀ id ∈ run, ¬ after.Attached id := by
  obtain ⟨ahead, inside, behind, stands, _⟩ := h.linked.stands ha ho hsplit hne
  refine ⟨⟨ahead, inside, behind, stands⟩, fun {_ _ _} stands => ?_⟩
  obtain ⟨texts, ht, hmarkup⟩ := stands.markup?
  obtain ⟨inserted, copied, top, new, after, hi, hreplace, hafter, whole, hnew, htop, hr⟩ :=
    stands.replaceRun h.linked hf.linked ha ho hsplit hne
  refine ⟨texts, inserted, copied, top, new, after, ht, hi, hmarkup, hreplace, hafter, whole, hnew,
    htop, hr, fun id hid => ?_⟩
  obtain ⟨hlt, node, hn, _⟩ := h.child ho id (by simp [hsplit, hid])
  have gone := hr.gone id hid
  rw [hn, Option.map_some] at gone
  exact hr.linked.not_attached gone rfl (Nat.ne_zero_of_lt hlt)

/-- An element and the text after it, in the middle of a paragraph, are replaced. -/
theorem replaceRun?_splices_middle :
    ∃ tree fragment after, read? "<p>a<i>b</i>c<br>d</p>".toList = some tree ∧
      read? "<u>y</u>z".toList = some fragment ∧ tree.Sound ∧ fragment.Sound ∧ tree.Attached 1 ∧
      tree.node? 1 = some ⟨some (.element ⟨['p'], [], .normal⟩), false, some 0, [2, 3, 5, 6, 7]⟩ ∧
      tree.Stands [3, 5] [(1, "<p>".toList), (2, ['a'])]
        [(3, "<i>".toList), (4, ['b']), (3, "</i>".toList), (5, ['c'])]
        [(6, "<br>".toList), (7, ['d']), (1, "</p>".toList)] ∧
      tree.replaceRun? [3, 5] fragment = some after ∧
      after.markup? 0 = some ("<p>a".toList ++ "<u>y</u>z".toList ++ "<br>d</p>".toList) := by
  obtain ⟨tree, ht, hl⟩ := linked_read "<p>a<i>b</i>c<br>d</p>".toList
  obtain ⟨fragment, hf, hfl⟩ := linked_read "<u>y</u>z".toList
  have root : (read? "<p>a<i>b</i>c<br>d</p>".toList).bind (·.node? 0) =
      some ⟨none, false, none, [1]⟩ := by decide +kernel
  have owner : (read? "<p>a<i>b</i>c<br>d</p>".toList).bind (·.node? 1) =
      some ⟨some (.element ⟨['p'], [], .normal⟩), false, some 0, [2, 3, 5, 6, 7]⟩ := by
    decide +kernel
  have whole : (read? "<p>a<i>b</i>c<br>d</p>".toList).bind (·.parts? [0]) =
      some ([(1, "<p>".toList), (2, ['a'])] ++
        [(3, "<i>".toList), (4, ['b']), (3, "</i>".toList), (5, ['c'])] ++
        [(6, "<br>".toList), (7, ['d']), (1, "</p>".toList)]) := by decide +kernel
  have own : (read? "<p>a<i>b</i>c<br>d</p>".toList).bind (·.parts? [3, 5]) =
      some [(3, "<i>".toList), (4, ['b']), (3, "</i>".toList), (5, ['c'])] := by decide +kernel
  have shown : (read? "<u>y</u>z".toList).bind (·.markup? 0) = some "<u>y</u>z".toList := by
    decide +kernel
  rw [ht, Option.bind_some] at root owner whole own
  rw [hf, Option.bind_some] at shown
  have attached : tree.Attached 1 := .child .document root (by decide)
  have stands : tree.Stands [3, 5] _ _ _ := ⟨whole, own, by decide⟩
  obtain ⟨_, inserted, _, _, _, after, _, hi, _, hreplace, hafter, _⟩ :=
    (replaceRun?_splices hl.sound hfl.sound attached owner
      (show [2, 3, 5, 6, 7] = [2] ++ [3, 5] ++ [6, 7] from rfl) (by decide)).2 stands
  cases hi.symm.trans shown
  exact ⟨tree, fragment, after, ht, hf, hl.sound, hfl.sound, attached, owner, stands, hreplace,
    hafter⟩

end Arena

end MarkupTemplate
