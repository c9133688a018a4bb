import MarkupTemplate.Proofs.InPlace.ArenaChains

namespace MarkupTemplate

/-- The forest with the chain that starts at a place replaced, and the notices of its conditions. -/
def Place.resolveChain (model : Model) (head : Element) (place : Place) : Forest × List Notice :=
  let chain := links place.next place.next
  let chosen := choose model (⟨head, place.children⟩ :: chain.1)
  (plug (chosen.1 ++ chain.2) place.way, chosen.2)

namespace Arena

/-- The condition of the node holds. -/
def satisfied (tree : Arena) (model : Model) (id : Nat) : Bool :=
  tree.isElement (fun e => (e.verdict model).1) id

/-- The notices of the condition of a node. -/
def verdictNotices (tree : Arena) (model : Model) (id : Nat) : List Notice :=
  (((tree.node? id).bind ArenaNode.element?).map fun e => (e.verdict model).2).getD []

/-- Of nodes those whose conditions are looked at: up to the first one that holds. -/
def tested (tree : Arena) (model : Model) (ids : List Nat) : List Nat :=
  ids.takeWhile (!tree.satisfied model ·) ++ (ids.find? (tree.satisfied model)).toList

/-- The children of the first node whose condition holds. -/
def chosenChildren (tree : Arena) (model : Model) (ids : List Nat) : List Nat :=
  (((ids.find? (tree.satisfied model)).bind tree.node?).map ArenaNode.children).getD []

/-- Nodes that stand for these branches, with other nodes between them. -/
inductive Branches (tree : Arena) : List Nat → List Branch → Prop
  | nil : Branches tree [] []
  | other {id : Nat} {node : ArenaNode} {rest : List Nat} {branches : List Branch} :
      tree.node? id = some node → node.element? = none → Branches tree rest branches →
      Branches tree (id :: rest) branches
  | branch {id : Nat} {node : ArenaNode} {e : Element} {children : Forest} {inner rest : List Nat}
      {branches : List Branch} : tree.node? id = some node → node.content = some (.element e) →
      tree.Lists id node.children children inner → Branches tree rest branches →
      Branches tree (id :: rest) (⟨e, children⟩ :: branches)

variable {tree : Arena} {parent id head : Nat} {ids blanks before all more : List Nat}
  {node owner : ArenaNode} {forest rest : Forest} {model : Model} {branches : List Branch}

theorem tested_cons (tree : Arena) (model : Model) (id : Nat) (ids : List Nat) :
    tree.tested model (id :: ids) =
      if tree.satisfied model id then [id] else id :: tree.tested model ids := by
  unfold tested
  rw [List.takeWhile_cons, List.find?_cons]
  cases tree.satisfied model id <;> simp

theorem verdict_of_element? {e : Element} (hn : tree.node? id = some node)
    (he : node.element? = some e) (model : Model) :
    tree.satisfied model id = (e.verdict model).1 ∧
      tree.verdictNotices model id = (e.verdict model).2 := by
  simp [satisfied, verdictNotices, isElement, hn, ArenaNode.isElement, he]

theorem verdict_of_none (hn : tree.node? id = some node) (he : node.element? = none)
    (model : Model) :
    tree.satisfied model id = false ∧ tree.verdictNotices model id = [] := by
  simp [satisfied, verdictNotices, isElement, hn, ArenaNode.isElement, he]

namespace Branches

theorem after_blanks (hb : ∀ k ∈ blanks, tree.isBlank k = true)
    (h : tree.Branches ids branches) : tree.Branches (blanks ++ ids) branches := by
  induction blanks with
  | nil => exact h
  | cons k blanks ih =>
    obtain ⟨hk, hb⟩ := List.forall_mem_cons.mp hb
    obtain ⟨node, hn, hblank⟩ := (Option.any_eq_true ..).mp hk
    refine .other hn ?_ (ih hb)
    unfold ArenaNode.isBlank at hblank
    split at hblank
    next hc =>
      rw [ArenaNode.element?_of_content hc]
      rfl
    next => cases hblank

/-- The winner is the first node whose condition holds, and no condition behind it is looked at. -/
theorem winner?_eq (h : tree.Branches ids branches) (model : Model) :
    tree.winner? model ids = some (ids.find? (tree.satisfied model),
      (tree.tested model ids).flatMap (tree.verdictNotices model)) := by
  induction h with
  | nil => rfl
  | other hn he _ ih =>
    obtain ⟨hs, hnotices⟩ := verdict_of_none hn he model
    rw [winner?, tested_cons, List.find?_cons, hs]
    simp [hn, he, ih, hnotices]
  | @branch _ _ e _ _ _ _ hn hc _ _ ih =>
    have he := ArenaNode.element?_of_content hc
    obtain ⟨hs, hnotices⟩ := verdict_of_element? hn he model
    rw [winner?, tested_cons, List.find?_cons, hs]
    rcases hv : e.verdict model with ⟨holds, notices⟩
    rw [hv] at hnotices
    cases holds <;> simp [hn, he, Content.element?, hv, ih, hnotices]

/-- The branch that is chosen comes with the same notices. -/
theorem choose_notices (h : tree.Branches ids branches) (model : Model) :
    (choose model branches).2 =
      (tree.tested model ids).flatMap (tree.verdictNotices model) := by
  induction h with
  | nil => rfl
  | other hn he _ ih =>
    obtain ⟨hs, hnotices⟩ := verdict_of_none hn he model
    rw [ih, tested_cons, hs]
    simp [hnotices]
  | @branch _ _ e _ _ _ _ hn hc _ _ ih =>
    obtain ⟨hs, hnotices⟩ := verdict_of_element? hn (ArenaNode.element?_of_content hc) model
    rw [choose, tested_cons, hs]
    rcases hv : e.verdict model with ⟨holds, notices⟩
    rw [hv] at hnotices
    cases holds <;> simp [ih, hnotices]

/-- The forest that is chosen is the one below the winner. -/
theorem choose_forest (h : tree.Branches ids branches) (model : Model) :
    (ids.find? (tree.satisfied model) = none ∧ (choose model branches).1 = .nil) ∨
      ∃ id node inner, ids.find? (tree.satisfied model) = some id ∧ tree.node? id = some node ∧
        tree.Lists id node.children (choose model branches).1 inner := by
  induction h with
  | nil => exact .inl ⟨rfl, rfl⟩
  | other hn he _ ih =>
    rw [List.find?_cons, (verdict_of_none hn he model).1]
    exact ih
  | @branch id node e children inner _ _ hn hc hchildren _ ih =>
    have hs := (verdict_of_element? hn (ArenaNode.element?_of_content hc) model).1
    rw [List.find?_cons, hs, choose]
    rcases e.verdict model with ⟨holds, notices⟩
    cases holds with
    | true => exact .inr ⟨id, node, inner, rfl, hn, hchildren⟩
    | false => exact ih

end Branches

/-- The siblings that continue a chain stand for its branches, and those after them hold what follows
the chain. -/
theorem Lists.links (hl : tree.Lists parent ids forest all)
    (hr : tree.Lists parent (blanks ++ ids) rest more)
    (hb : ∀ k ∈ blanks, tree.isBlank k = true) :
    ∃ later others, blanks ++ ids = tree.following blanks ids ++ later ∧
      tree.Branches (tree.following blanks ids) (links rest forest).1 ∧
      tree.Lists parent later (links rest forest).2 others := by
  induction hl generalizing blanks rest more with
  | nil => exact ⟨_, _, rfl, .nil, hr⟩
  | @cons parent id node content ids inner others children next hn hc hp hchildren hnext _ ih =>
    rw [following]
    cases content with
    | text text =>
      have hblank : tree.isBlank id = isBlankText text := by
        simp [isBlank, hn, ArenaNode.isBlank, hc]
      have hlink : tree.isElement (·.isLink) id = false := by
        simp [isElement, hn, ArenaNode.isElement_of_content hc, Content.isElement, Content.element?]
      rw [links.eq_def, hblank, hlink]
      dsimp only
      split
      next hid =>
        -- A blank text waits for a link behind it, without which it stays behind the chain.
        obtain ⟨later, others, hsplit, hrest⟩ := ih (by rwa [List.append_cons] at hr) fun k hk => by
          rcases List.mem_append.mp hk with hk | hk
          · exact hb k hk
          · rw [List.mem_singleton.mp hk, hblank, hid]
        exact ⟨later, others, by rw [← hsplit, List.append_cons], hrest⟩
      next => exact ⟨_, _, rfl, .nil, hr⟩
    | verbatim source =>
      have hblank : tree.isBlank id = false := by simp [isBlank, hn, ArenaNode.isBlank, hc]
      have hlink : tree.isElement (·.isLink) id = false := by
        simp [isElement, hn, ArenaNode.isElement_of_content hc, Content.isElement, Content.element?]
      rw [links.eq_def, hblank, hlink]
      exact ⟨_, _, rfl, .nil, hr⟩
    | element e =>
      have hblank : tree.isBlank id = false := by simp [isBlank, hn, ArenaNode.isBlank, hc]
      have test (property : Element → Bool) : tree.isElement property id = property e := by
        simp [isElement, hn, ArenaNode.isElement_of_content hc, Content.isElement, Content.element?]
      rw [links.eq_def, hblank, test, test]
      dsimp only
      split
      next => contradiction
      next =>
        split
        next hl =>
          split
          next ho =>
            have ho : e.role = .otherwise := by simpa using ho
            rw [if_pos ho]
            exact ⟨ids, others, by simp, .after_blanks hb (.branch hn hc hchildren .nil), hnext⟩
          next ho =>
            have ho : ¬ e.role = .otherwise := by simpa using ho
            rw [if_neg ho]
            obtain ⟨later, others, hsplit, hbranches, hlater⟩ := @ih [] others next hnext (by simp)
            refine ⟨later, others, ?_, .after_blanks hb (.branch hn hc hchildren hbranches), hlater⟩
            rw [List.nil_append] at hsplit
            rw [List.append_assoc, List.cons_append, ← hsplit]
        next => exact ⟨_, _, rfl, .nil, hr⟩

/-- The fragment for a chain has copies of what is below the winner, which holds the forest that is
chosen. -/
theorem Branches.fragment (hb : tree.Branches ids branches) (h : tree.Linked []) (model : Model) :
    ∃ fragment top floor root, (match ids.find? (tree.satisfied model) with
        | some id => tree.childrenFragment? id
        | none => some {}) = some fragment ∧
      fragment.Linked [] ∧ fragment.node? 0 = some top ∧
      Mirrors tree fragment floor root (tree.chosenChildren model ids) top.children ∧
      ∃ origin copied,
        tree.Lists origin (tree.chosenChildren model ids) (choose model branches).1 copied := by
  unfold chosenChildren
  rcases hb.choose_forest model with ⟨hnone, hforest⟩ | ⟨id, node, inner, hsome, hn, hlists⟩
  · rw [hnone, hforest]
    exact ⟨{}, { content := none }, 0, 0, rfl, linked_empty, rfl, .nil, 0, [], .nil⟩
  · obtain ⟨fragment, new, hf, hl, hroot, mirrors⟩ := h.mirrors_childrenFragment hn
    rw [hsome]
    simp only [Option.bind_some, hn, Option.map_some, Option.getD_some]
    exact ⟨fragment, _, 1, 0, hf, hl, hroot, mirrors, id, inner, hlists⟩

/-- The chain at a place is replaced by copies of what is below its winner. -/
theorem At.resolveChain {place : Place} {e : Element} (h : tree.Linked [])
    (hat : tree.At place head) (he : place.content = .element e) (run : Run) :
    ∃ parent owner before links later new after,
      tree.node? parent = some owner ∧ owner.children = before ++ (head :: links) ++ later ∧
      links = tree.following [] (links ++ later) ∧
      tree.resolveChain? run head = some
        (run.noteAll ((tree.tested run.model (head :: links)).flatMap
          (tree.verdictNotices run.model)), after) ∧
      Replaced tree after parent owner before (head :: links) later tree
        (tree.chosenChildren run.model (head :: links)) new ∧
      after.Holds (place.resolveChain run.model e).1 ∧
      (place.resolveChain run.model e).2 = (tree.tested run.model (head :: links)).flatMap
        (tree.verdictNotices run.model) := by
  obtain ⟨parent, owner, before, rest, all, hi⟩ := hat.inside h
  cases hi.lists with
  | @cons _ _ node _ _ inner others _ _ hn hc hp hchildren hnext =>
    rw [he] at hc
    have hrest : tree.Lists parent ([] ++ rest) place.next others := hnext
    obtain ⟨later, more, hsplit, hbranches, hlater⟩ := hnext.links hrest (by simp)
    rw [List.nil_append] at hsplit
    have hchain := Branches.branch hn hc hchildren hbranches
    obtain ⟨fragment, top, floor, root, hf, hl, htop, mirrors, origin, copied, hlists⟩ :=
      hchain.fragment h run.model
    have hrun : owner.children = before ++ (head :: tree.following [] rest) ++ later := by
      rw [List.append_assoc, List.cons_append, ← hsplit, hi.children]
    obtain ⟨top', new, after, htop', ha, hr⟩ :=
      h.replaced hl hi.owner hrun (List.cons_ne_nil _ _)
    cases htop.symm.trans htop'
    have replaced := { hr with copies := mirrors.trans hr.copies }
    have inside : Inside tree place.way (.node place.content place.children place.next) parent owner
        before ((head :: tree.following [] rest) ++ later) (head :: (inner ++ others)) := by
      rw [List.cons_append, ← hsplit]
      exact hi
    refine ⟨parent, owner, before, tree.following [] rest, later, new, after, hi.owner, hrun,
      by rw [← hsplit], ?_, replaced, ?_, hchain.choose_notices run.model⟩
    · rw [resolveChain?, h.chain?_eq hi.owner hi.children]
      simp only [Option.bind_eq_bind, Option.bind_some, hchain.winner?_eq run.model]
      cases hw : (head :: tree.following [] rest).find? (tree.satisfied run.model) with
      | none =>
        simp only [hw, Option.some.injEq] at hf
        simp only [hf, ha, Option.bind_some]
      | some id =>
        simp only [hw] at hf
        simp only [hf, ha, Option.bind_some]
    · exact replaced.holds inside hlater hlists

/-- Of the siblings behind an attached head the longest series that continues its chain is replaced
together with it. In their place stand copies of the children of the first of these nodes whose
condition holds, every other node stays, and the conditions up to that one are told of, each once.
The forest that the arena holds changes alike. -/
theorem resolveChain?_replaces_chain (h : tree.Sound) (ha : tree.Attached head)
    (hn : tree.node? head = some node) (hh : node.isElement (·.isHead) = true) (run : Run) :
    ∃ parent owner before links later new result,
      tree.node? parent = some owner ∧ owner.children = before ++ (head :: links) ++ later ∧
      tree.Continues links ∧
      (∀ others, others <+: links ++ later → tree.Continues others → others <+: links) ∧
      tree.resolveChain? run head = some
        (run.noteAll ((tree.tested run.model (head :: links)).flatMap
          (tree.verdictNotices run.model)), result) ∧
      Replaced tree result parent owner before (head :: links) later tree
        (tree.chosenChildren run.model (head :: links)) new ∧
      ∀ {forest : Forest}, tree.Holds forest → ∃ place e, tree.At place head ∧
        place.whole = forest ∧ place.content = .element e ∧
        result.Holds (place.resolveChain run.model e).1 ∧
        (place.resolveChain run.model e).2 = (tree.tested run.model (head :: links)).flatMap
          (tree.verdictNotices run.model) := by
  have hl := h.linked
  obtain ⟨e, hc, _⟩ := ArenaNode.exists_of_isElement hh
  obtain ⟨whole, hwhole⟩ := hl.exists_holds
  obtain ⟨place, hat, hplace⟩ := ha.exists_at hwhole (hl.ne_zero hn hh)
  have he := hat.content hl hn hc
  obtain ⟨parent, owner, before, links, later, new, result, ho, hs, hlinks, hr, replaced, holds,
    notices⟩ := hat.resolveChain hl he run
  refine ⟨parent, owner, before, links, later, new, result, ho, hs, ?_, fun others hp hothers => ?_,
    hr, replaced, fun hforest => ?_⟩
  · rw [hlinks]
    exact continues_following (by simp) _
  · rw [hlinks]
    exact hothers.prefix_following (by simp) hp
  · exact ⟨place, e, hat, hplace.trans (hwhole.unique hforest), he, holds, notices⟩

/-- The arena of `<p><if a>A</if> <elseif b><i>B</i></elseif> <else>C</else> !</p>`. -/
def chainArena : Arena where
  nodes := #[
    { content := none, children := [1] },
    { content := some (.element ⟨['p'], [], .normal⟩), parent := some 0,
      children := [2, 4, 5, 8, 9, 11] },
    { content := some (.element ⟨"if".toList, [⟨['a'], .bare⟩], .normal⟩), parent := some 1,
      children := [3] },
    { content := some (.text ['A']), parent := some 2 },
    { content := some (.text [' ']), parent := some 1 },
    { content := some (.element ⟨"elseif".toList, [⟨['b'], .bare⟩], .normal⟩), parent := some 1,
      children := [6] },
    { content := some (.element ⟨['i'], [], .normal⟩), parent := some 5, children := [7] },
    { content := some (.text ['B']), parent := some 6 },
    { content := some (.text [' ']), parent := some 1 },
    { content := some (.element ⟨"else".toList, [], .normal⟩), parent := some 1,
      children := [10] },
    { content := some (.text ['C']), parent := some 9 },
    { content := some (.text " !".toList), parent := some 1 }]

theorem sound_chainArena : chainArena.Sound := by
  obtain ⟨tree, ht, hl⟩ :=
    linked_read "<p><if a>A</if> <elseif b><i>B</i></elseif> <else>C</else> !</p>".toList
  have read : read? "<p><if a>A</if> <elseif b><i>B</i></elseif> <else>C</else> !</p>".toList =
      some chainArena := by decide +kernel
  cases ht.symm.trans read
  exact hl.sound

/-- The state of a render whose model has a value for the second condition only. -/
def chainRun : Run where
  model := ⟨[(['b'], .bool true)]⟩
  budget := .spent
  verbosity := .concise

/-- The chain ends with its `else`, and the blank text behind it is no part of it. -/
theorem resolveChain?_replaces_chain_paragraph :
    chainArena.Sound ∧ chainArena.Attached 2 ∧
      ∃ parent owner before links later new result,
        chainArena.node? parent = some owner ∧
        owner.children = before ++ (2 :: links) ++ later ∧ chainArena.Continues links ∧
        chainArena.resolveChain? chainRun 2 = some
          (chainRun.noteAll ((chainArena.tested chainRun.model (2 :: links)).flatMap
            (chainArena.verdictNotices chainRun.model)), result) ∧
        Replaced chainArena result parent owner before (2 :: links) later chainArena
          (chainArena.chosenChildren chainRun.model (2 :: links)) new := by
  have attached : chainArena.Attached 2 :=
    .child (.child .document rfl List.mem_cons_self) rfl List.mem_cons_self
  obtain ⟨parent, owner, before, links, later, new, result, ho, hs, continues, _, hr, replaced, _⟩ :=
    resolveChain?_replaces_chain sound_chainArena attached rfl (by decide +kernel) chainRun
  exact ⟨sound_chainArena, attached, parent, owner, before, links, later, new, result, ho, hs,
    continues, hr, replaced⟩

example : (chainArena.resolveChain? chainRun 2).bind (·.2.markup? 0) =
    some "<p><i>B</i> !</p>".toList := by decide +kernel

end Arena

end MarkupTemplate
