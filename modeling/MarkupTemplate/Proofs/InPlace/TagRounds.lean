import MarkupTemplate.Proofs.InPlace.ChainBranches
import MarkupTemplate.Proofs.InPlace.ArenaIncludes

namespace MarkupTemplate

theorem size_plug_lt {inside other : Forest} (h : inside.size < other.size) (way : List Frame) :
    (plug inside way).size < (plug other way).size := by
  induction way generalizing inside other with
  | nil => exact h
  | cons frame way ih =>
    apply ih
    cases frame <;> simp only [Frame.plug, Forest.size] <;> omega

/-- Resolving a chain makes the forest smaller. -/
theorem Place.size_resolveChain_lt (place : Place) (model : Model) (e : Element) :
    (place.resolveChain model e).1.size < place.whole.size := by
  refine size_plug_lt ?_ place.way
  have chosen := size_choose_le model (⟨e, place.children⟩ :: (links place.next place.next).1)
  have after := size_links_le (Nat.le_refl place.next.size)
  simp only [branchesSize] at chosen
  simp only [Forest.size_append, Forest.size]
  omega

/-- All chains are resolved as if the one that is found first were resolved before all others. -/
theorem Place.resolveChains_whole (place : Place) {e : Element}
    (hf : place.whole.find? (Place.isOuter (·.isHead)) = some place)
    (he : place.content = .element e) (model : Model) :
    resolveChains model place.whole =
      let first := place.resolveChain model e
      let rest := resolveChains model first.1
      (rest.1, first.2 ++ rest.2) := by
  obtain ⟨around, hfirst, hplug⟩ := firstOuter_of_find? hf he
  rw [hfirst.resolveChains model]
  dsimp only [Place.resolveChain]
  rw [hplug]

theorem Run.noteAll_append (run : Run) (notices others : List Notice) :
    (run.noteAll notices).noteAll others = run.noteAll (notices ++ others) := by
  induction notices generalizing run with
  | nil => rfl
  | cons notice notices ih => rw [List.cons_append, noteAll_cons, noteAll_cons, ih]

/-- Tags that are resolved stay as they are. -/
theorem resolveTags_of_settled {pass : Pass} (h : Settled pass) (context : Context) :
    resolveTags context pass.1 pass.2 = pass := by
  have expanded : expandAll context pass.1 pass.2 = pass := by
    rcases h.inclusions with hs | hi
    · rw [expandAll, hs]
    · exact expandAll_none (find?_isOuter_eq_none_iff.mpr hi)
  rw [resolveTags_eq, expanded]
  dsimp only
  rw [resolveChains_of_headless h.heads]
  rfl

namespace Arena

variable {tree result : Arena} {parent head : Nat} {before rest : List Nat} {owner : ArenaNode}
  {forest : Forest} {context : Context} {run after : Run}

/-- The chosen children have no marks, as they are copies of nodes with a parent. -/
theorem MarkedApart.resolveChain? (apart : tree.MarkedApart []) (h : tree.Linked [])
    (ho : tree.node? parent = some owner) (hs : owner.children = before ++ head :: rest)
    (hr : tree.resolveChain? run head = some (after, result)) : result.MarkedApart [] := by
  have replacing {fragment : Arena} (hl : fragment.Linked []) (unmarked : fragment.MarkedApart [])
      {links : List Nat} (ha : tree.replaceRun? (head :: links) fragment = some result) :
      result.MarkedApart [] :=
    MarkedApart.replaceRun? hl unmarked (apart.weaken _) h ho (by simp [hs]) ha
  rw [Arena.resolveChain?, h.chain?_eq ho hs, Option.bind_eq_bind, Option.bind_some] at hr
  obtain ⟨⟨winner, notices⟩, _, hr⟩ := Option.bind_eq_some_iff.mp hr
  cases winner with
  | none =>
    obtain ⟨_, hf, hr⟩ := Option.bind_eq_some_iff.mp hr
    cases Option.some.inj hf
    obtain ⟨replaced, ha, hr⟩ := Option.bind_eq_some_iff.mp hr
    cases hr
    exact replacing linked_empty .empty ha
  | some id =>
    obtain ⟨fragment, hf, hr⟩ := Option.bind_eq_some_iff.mp hr
    obtain ⟨replaced, ha, hr⟩ := Option.bind_eq_some_iff.mp hr
    cases hr
    obtain ⟨node, hn, _⟩ := Option.bind_eq_some_iff.mp hf
    obtain ⟨same, hsame, hl⟩ := h.childrenFragment hn
    cases hf.symm.trans hsame
    exact replacing hl (MarkedApart.childrenFragment? h apart hf) ha

/-- Resolving chains comes to an end after fewer turns than the forest has nodes, and is progress
exactly if it makes the forest smaller. No head is left. Where no loop is marked, the forest comes to
the same. -/
theorem Linked.resolveChains? (h : tree.Linked []) (hh : tree.Holds forest) (run : Run)
    (progressed : Bool) :
    ∃ changed notices result, result.Linked [] ∧ (∀ id, ¬ result.IsOuter (·.isHead) id) ∧
      (∀ turns, forest.size < turns → Arena.resolveChains? turns progressed run tree =
        some (changed, run.noteAll notices, result)) ∧
      ((changed = progressed ∧ result = tree) ∨
        (changed = true ∧ ∃ smaller, result.Holds smaller ∧ smaller.size < forest.size)) ∧
      (tree.MarkedApart [] → notices = (resolveChains run.model forest).2 ∧
        result.Holds (resolveChains run.model forest).1 ∧ result.MarkedApart []) := by
  induction hsize : forest.size using Nat.strongRecOn generalizing run tree progressed forest with
  | ind size ih =>
    subst hsize
    rcases hh.find_outer h (·.isHead) with
      ⟨hf, hnone, same⟩ | ⟨place, id, e, hf, hat, rfl, he, _, same⟩
    · refine ⟨progressed, [], tree, h, hnone, fun turns ht => ?_, .inl ⟨rfl, rfl⟩, fun apart => ?_⟩
      · obtain ⟨turns, rfl⟩ := Nat.exists_eq_succ_of_ne_zero (Nat.ne_zero_of_lt ht)
        simp only [Arena.resolveChains?, hf, Option.bind_eq_bind, Option.bind_some]
        rfl
      · rw [resolveChains_of_headless (find?_isOuter_eq_none_iff.mp (same apart))]
        exact ⟨rfl, hh, apart⟩
    · obtain ⟨parent, owner, before, links, later, new, middle, ho, hs, _, hr, replaced, holds,
        notices⟩ := hat.resolveChain h he run
      -- The chain with all below its links is larger than the branch that stays of it.
      have smaller := place.size_resolveChain_lt run.model e
      obtain ⟨changed, others, result, hl, hnone, ended, progress, last⟩ :=
        ih _ smaller replaced.linked holds
          (run.noteAll ((tree.tested run.model (id :: links)).flatMap
            (tree.verdictNotices run.model))) true rfl
      obtain rfl : changed = true := progress.elim And.left And.left
      refine ⟨true, (place.resolveChain run.model e).2 ++ others, result, hl, hnone,
        fun turns ht => ?_, .inr ⟨rfl, ?_⟩, fun apart => ?_⟩
      · obtain ⟨turns, rfl⟩ := Nat.exists_eq_succ_of_ne_zero (Nat.ne_zero_of_lt ht)
        simp only [Arena.resolveChains?, hf, hr, Option.bind_eq_bind, Option.bind_some]
        rw [ended turns (Nat.lt_of_lt_of_le smaller (Nat.le_of_lt_succ ht)), Run.noteAll_append,
          notices]
      · rcases progress with ⟨_, rfl⟩ | ⟨_, fewer, hfewer, hlt⟩
        · exact ⟨_, holds, smaller⟩
        · exact ⟨fewer, hfewer, Nat.lt_trans hlt smaller⟩
      · rw [List.append_assoc] at hs
        obtain ⟨told, last⟩ := last (apart.resolveChain? h ho hs hr)
        rw [place.resolveChains_whole (same apart) he run.model, told]
        exact ⟨rfl, last⟩

/-- What resolving all tags comes to. Each include that was resolved is logged and took a step. No
head is left that is not in a waiting loop, and no include either unless the budget is spent. Where
no loop is marked, the forest comes to the same. -/
structure ResolvesTags (context : Context) (run after : Run) (tree result : Arena) : Prop where
  linked : result.Linked []
  model : after.model = run.model
  asked : ∃ asked, after.expanded = asked ++ run.expanded ∧
    asked.length + after.budget.left = run.budget.left
  heads (id : Nat) : ¬ result.IsOuter (·.isHead) id
  inclusions : after.budget = .spent ∨ ∀ id, ¬ result.IsOuter (·.isInclusion) id
  same {forest : Forest} : tree.Holds forest → tree.MarkedApart [] →
    after = (resolveTags context run forest).1 ∧ result.Holds (resolveTags context run forest).2 ∧
      result.MarkedApart []

section Round

variable {middle expanded : Arena} {last : Run} {notices : List Notice}

/-- A round over the arena is one over the forest. -/
theorem Expands.round (h : Expands context run after tree expanded)
    (chains : ∀ {forest : Forest}, expanded.Holds forest → expanded.MarkedApart [] →
      notices = (resolveChains after.model forest).2 ∧
        middle.Holds (resolveChains after.model forest).1 ∧ middle.MarkedApart [])
    (hh : tree.Holds forest) (apart : tree.MarkedApart []) :
    after.noteAll notices = (resolveTags context run forest).1 ∧
      middle.Holds (resolveTags context run forest).2 ∧ middle.MarkedApart [] := by
  obtain ⟨rfl, hheld, unmarked⟩ := h.same hh apart
  obtain ⟨rfl, holds, unmarked⟩ := chains hheld unmarked
  exact ⟨rfl, holds, unmarked⟩

/-- More rounds after one with progress. -/
theorem ResolvesTags.afterRound (h : Expands context run after tree expanded)
    (round : ∀ {forest : Forest}, tree.Holds forest → tree.MarkedApart [] →
      after.noteAll notices = (resolveTags context run forest).1 ∧
        middle.Holds (resolveTags context run forest).2 ∧ middle.MarkedApart [])
    (rest : ResolvesTags context (after.noteAll notices) last middle result) :
    ResolvesTags context run last tree result where
  linked := rest.linked
  model := rest.model.trans h.model
  asked := by
    obtain ⟨asked, he, hlen⟩ := h.asked
    obtain ⟨others, he', hlen'⟩ := rest.asked
    refine ⟨others ++ asked, ?_, ?_⟩
    · rw [he', List.append_assoc, ← he]
      rfl
    · have left : (after.noteAll notices).budget.left = after.budget.left := rfl
      rw [List.length_append]
      omega
  heads := rest.heads
  inclusions := rest.inclusions
  same hh apart := by
    obtain ⟨hrun, holds, unmarked⟩ := round hh apart
    obtain ⟨hlast, held, apart⟩ := rest.same holds unmarked
    rw [hrun, resolveTags_of_settled (resolveTags_settled context run _)] at hlast held
    exact ⟨hlast, held, apart⟩

end Round

/-- The rounds come to an end, however many turns they may take beyond that. -/
theorem Linked.resolveTags? (h : tree.Linked []) (context : Context) (run : Run) :
    ∃ turns after result, ResolvesTags context run after tree result ∧
      ∀ more, turns ≤ more → Arena.resolveTags? context more run tree = some (after, result) := by
  obtain ⟨forest, hh⟩ := h.exists_holds
  -- Each round with progress has taken a step, or has made the forest smaller without one.
  induction hleft : run.budget.left using Nat.strongRecOn generalizing run tree forest with
  | ind left fewer =>
    induction hsize : forest.size using Nat.strongRecOn generalizing run tree forest with
    | ind size smaller =>
      subst hsize
      obtain ⟨progressed, after, expanded, expands, ended, progress⟩ :=
        h.expandIncludes? context run false
      obtain ⟨held, hheld⟩ := expands.linked.exists_holds
      obtain ⟨changed, notices, middle, hl, hnone, ended', progress', same⟩ :=
        expands.linked.resolveChains? hheld after progressed
      have round {forest : Forest} (hh : tree.Holds forest) (apart : tree.MarkedApart []) :
          after.noteAll notices = (resolveTags context run forest).1 ∧
            middle.Holds (resolveTags context run forest).2 ∧ middle.MarkedApart [] := by
        refine expands.round (fun hf apart => ?_) hh apart
        rw [hf.unique hheld]
        exact same apart
      have turn {turns : Nat} (ht : max run.budget.left held.size < turns) :
          Arena.resolveTags? context (turns + 1) run tree =
            if changed then Arena.resolveTags? context turns (after.noteAll notices) middle
            else some (after.noteAll notices, middle) := by
        rw [Arena.resolveTags?, ended turns (by omega), Option.bind_eq_bind, Option.bind_some]
        dsimp only
        rw [ended' turns (by omega), Option.bind_some]
      cases changed with
      | false =>
        obtain ⟨rfl, rfl⟩ : false = progressed ∧ middle = expanded :=
          progress'.resolve_right nofun
        refine ⟨max run.budget.left held.size + 2, after.noteAll notices, middle,
          ⟨hl, expands.model, expands.asked, hnone, expands.ended, round⟩, fun more hmore => ?_⟩
        obtain ⟨turns, rfl⟩ : ∃ turns, more = turns + 1 := ⟨more - 1, by omega⟩
        rw [turn (by omega)]
        rfl
      | true =>
        obtain ⟨turns, last, result, resolves, ends⟩ : ∃ turns last result,
            ResolvesTags context (after.noteAll notices) last middle result ∧ ∀ more, turns ≤ more →
              Arena.resolveTags? context more (after.noteAll notices) middle =
                some (last, result) := by
          obtain ⟨holding, hholding⟩ := hl.exists_holds
          rcases progress with ⟨rfl, rfl, hsame⟩ | ⟨_, hlt⟩
          · obtain ⟨_, less, hless, hlt⟩ := progress'.resolve_left nofun
            rw [hheld.unique hh] at hlt
            exact smaller _ hlt hl _ _ hless (hsame.trans hleft) rfl
          · exact fewer _ (hleft ▸ hlt) hl _ _ hholding rfl
        refine ⟨max turns (max run.budget.left held.size + 1) + 1, last, result,
          .afterRound expands round resolves, fun more hmore => ?_⟩
        obtain ⟨turns, rfl⟩ : ∃ turns, more = turns + 1 := ⟨more - 1, by omega⟩
        rw [turn (by omega), if_pos rfl, ends turns (by omega)]

/-- Whatever the budget, the templates and the model are, the rounds over the tags of a sound arena
come to an end. Every include that they resolve is logged and takes one of the steps that were left.
In the end no head is attached that is not in a waiting loop, and no include either unless the budget
is spent. The model stays as it was, and the forest that the arena holds comes to the same. -/
theorem resolveTags?_ends (h : tree.Sound) (context : Context) (run : Run) :
    ∃ turns after result,
      (∀ more, turns ≤ more → Arena.resolveTags? context more run tree = some (after, result)) ∧
      result.Sound ∧ after.model = run.model ∧
      (∃ asked, after.expanded = asked ++ run.expanded ∧
        asked.length + after.budget.left = run.budget.left) ∧
      (∀ id, ¬ result.IsOuter (·.isHead) id) ∧
      (after.budget = .spent ∨ ∀ id, ¬ result.IsOuter (·.isInclusion) id) ∧
      ∀ {forest : Forest}, tree.Holds forest → tree.MarkedApart [] →
        after = (resolveTags context run forest).1 ∧
          result.Holds (resolveTags context run forest).2 := by
  obtain ⟨turns, after, result, resolves, ends⟩ := h.linked.resolveTags? context run
  refine ⟨turns, after, result, ends, resolves.linked.sound, resolves.model, resolves.asked,
    resolves.heads, resolves.inclusions, fun hh apart => ?_⟩
  obtain ⟨hafter, hheld, _⟩ := resolves.same hh apart
  exact ⟨hafter, hheld⟩

/-- The arena of `<if b><include src="p"/></if><include src="p"/>`. -/
def includesArena : Arena where
  nodes := #[
    { content := none, children := [1, 3] },
    { content := some (.element ⟨"if".toList, [⟨['b'], .bare⟩], .normal⟩), parent := some 0,
      children := [2] },
    { content := some (.element
        ⟨"include".toList, [⟨"src".toList, .quoted .double ['p']⟩], .selfClosed⟩),
      parent := some 1 },
    { content := some (.element
        ⟨"include".toList, [⟨"src".toList, .quoted .double ['p']⟩], .selfClosed⟩),
      parent := some 0 }]

theorem sound_includesArena : includesArena.Sound := by
  obtain ⟨tree, ht, hl⟩ := linked_read "<if b><include src=\"p\"/></if><include src=\"p\"/>".toList
  have read : read? "<if b><include src=\"p\"/></if><include src=\"p\"/>".toList =
      some includesArena := by decide +kernel
  cases ht.symm.trans read
  exact hl.sound

/-- With one step for two includes the rounds come to an end as well. -/
theorem resolveTags?_ends_short :
    includesArena.Sound ∧ ∃ turns after result,
      (∀ more, turns ≤ more →
        Arena.resolveTags? (dashes 1) more (.start (dashes 1) chainRun.model) includesArena =
          some (after, result)) ∧
      result.Sound ∧ after.model = chainRun.model ∧
      (∃ asked, after.expanded = asked ++ [] ∧ asked.length + after.budget.left = 1) ∧
      (∀ id, ¬ result.IsOuter (·.isHead) id) ∧
      (after.budget = .spent ∨ ∀ id, ¬ result.IsOuter (·.isInclusion) id) := by
  obtain ⟨turns, after, result, ends, sound, model, asked, heads, inclusions, _⟩ :=
    resolveTags?_ends sound_includesArena (dashes 1) (.start (dashes 1) chainRun.model)
  exact ⟨sound_includesArena, turns, after, result, ends, sound, model, asked, heads, inclusions⟩

example :
    (Arena.resolveTags? (dashes 1) 5 (.start (dashes 1) chainRun.model) includesArena).bind
        (·.2.markup? 0) =
      some "-<include src=\"p\"/>".toList := by decide +kernel

end Arena

end MarkupTemplate
