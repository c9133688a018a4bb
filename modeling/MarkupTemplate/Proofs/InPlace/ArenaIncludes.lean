import MarkupTemplate.Proofs.Render.IncludeBudget
import MarkupTemplate.Proofs.Arena.NodePlaces
import MarkupTemplate.Proofs.Arena.Soundness
import MarkupTemplate.Render.InPlace

namespace MarkupTemplate

/-- The forest that was read, with the repairs noted, as an arena. -/
theorem Run.readArena?_eq (run : Run) (text : Text) :
    ∃ tree, run.readArena? text = some ((run.read text).1, tree) ∧ tree.Linked [] ∧
      tree.Holds (run.read text).2 ∧ tree.MarkedApart [] := by
  obtain ⟨tree, ht, hh, hw⟩ := Arena.holds_read text
  obtain ⟨same, hs, hl⟩ := Arena.linked_read text
  cases ht.symm.trans hs
  have apart := Arena.markedApart_read? ht
  refine ⟨{ tree with warnings := [] }, ?_, hl.withWarnings [], ?_, ⟨apart.unmarked⟩⟩
  · rw [readArena?, ht, read, ← hw]
    rfl
  · obtain ⟨document, all, hd, hlists, hpos⟩ := hh
    exact ⟨document, all, hd, hlists.frame fun _ _ => rfl, hpos⟩

namespace Arena

variable {tree : Arena} {parent id depth : Nat} {ids all : List Nat} {node : ArenaNode}
  {forest : Forest} {content : Content} {children : Forest}

/-- Nodes are written as the forest that they hold. -/
theorem Linked.mapM_markupBelow? (h : tree.Linked []) (hl : tree.Lists parent ids forest all)
    (hdepth : ∀ id ∈ all, tree.size ≤ id + depth) :
    ∃ texts, ids.mapM (tree.markupBelow? depth) = some texts ∧ texts.flatten = forest.markup := by
  induction hl generalizing depth with
  | nil => exact ⟨[], rfl, rfl⟩
  | @cons parent id node content rest inner others children next hn hc hp hchildren hnext ihc ihn =>
    obtain ⟨hd, hdepth⟩ := List.forall_mem_cons.mp hdepth
    obtain ⟨depth, rfl, deeper⟩ := exists_deeper hn hd
    have inside : ∀ k ∈ inner, tree.size ≤ k + depth := fun k hk =>
      deeper k (h.lt_of_lists hchildren k hk)
    obtain ⟨texts, ht, hflat⟩ := ihc inside
    obtain ⟨later, hlater, hrest⟩ := ihn fun k hk => hdepth k (List.mem_append_right _ hk)
    rw [List.mapM_cons, markupBelow?, hlater, Forest.markup_node, ← hflat, ← hrest]
    simp only [Option.bind_eq_bind, Option.bind_some, hn, hc, ht]
    cases content.showsChildren with
    | true => exact ⟨_, rfl, by simp⟩
    | false => exact ⟨_, rfl, by simp⟩

theorem Linked.childrenMarkup?_eq (h : tree.Linked []) (hn : tree.node? id = some node)
    (hl : tree.Lists id node.children forest all) :
    tree.childrenMarkup? id = some forest.markup := by
  have enough : ∀ k ∈ all, tree.size ≤ k + tree.size := fun _ _ => Nat.le_add_left ..
  obtain ⟨texts, ht, hflat⟩ := h.mapM_markupBelow? hl enough
  have same : node.children.mapM tree.markup? = some texts := ht
  rw [childrenMarkup?, hn, Option.bind_eq_bind, Option.bind_some, same]
  exact congrArg some hflat

theorem Linked.markup?_eq (h : tree.Linked []) (hn : tree.node? id = some node)
    (hc : node.content = some content) (hp : node.parent = some parent)
    (hl : tree.Lists id node.children children all) :
    tree.markup? id = some (Forest.node content children .nil).markup := by
  have enough : ∀ k ∈ id :: all, tree.size ≤ k + tree.size := fun _ _ => Nat.le_add_left ..
  obtain ⟨texts, ht, hflat⟩ := h.mapM_markupBelow? (.single hn hc hp hl) enough
  rw [List.mapM_cons] at ht
  obtain ⟨text, hfirst, ht⟩ := Option.bind_eq_some_iff.mp ht
  cases ht
  rw [markup?, hfirst, ← hflat]
  simp

/-- The arguments of an include are bound in the arena as in the forest. -/
theorem Linked.bindArguments?_eq (h : tree.Linked []) (hl : tree.Lists parent ids forest all)
    (source : Text) (run : Run) (template : Text) :
    tree.bindArguments? source ids run template =
      some (bindArguments source forest run template) := by
  induction hl generalizing run template with
  | nil => rfl
  | @cons parent id node content rest inner others children next hn hc hp hchildren hnext _ ih =>
    cases content with
    | element e =>
      simp only [bindArguments?, bindArguments, hn, hc, Option.bind_eq_bind, Option.bind_some]
      split
      next =>
        cases e.attributes with
        | nil => rfl
        | cons attr attributes =>
          simp only [h.childrenMarkup?_eq hn hchildren, Option.bind_some, ih]
      next => simp only [h.markup?_eq hn hc hp hchildren, Option.bind_some, ih]
    | text text =>
      simp only [bindArguments?, bindArguments, hn, hc, Option.bind_eq_bind, Option.bind_some]
      split
      next => exact ih _ _
      next => exact ih _ _
    | verbatim source =>
      simp only [bindArguments?, bindArguments, hn, hc, Option.bind_eq_bind, Option.bind_some, ih]

/-- Arenas that hold these forests, where only nodes without a parent are marked if it was so
before. -/
structure Follows (tree after : Arena) (forest : Forest) : Prop where
  linked : after.Linked []
  holds : after.Holds forest
  apart : tree.MarkedApart [] → after.MarkedApart []

section Places

variable {place : Place}

theorem At.detach (h : tree.Linked []) (hat : tree.At place id) :
    ∃ after, tree.detach? id = some after ∧ Follows tree after place.remove := by
  obtain ⟨parent, owner, before, later, all, hi⟩ := hat.inside h
  obtain ⟨after, ha, hd, hh⟩ := hi.detach h
  exact ⟨after, ha, hd.linked, hh, fun apart => (apart.weaken [id]).detached hd⟩

theorem At.replace {fragment : Arena} (h : tree.Linked []) (hat : tree.At place id)
    (hl : fragment.Linked []) (hh : fragment.Holds forest) (apart : fragment.MarkedApart []) :
    ∃ after, tree.replace? id fragment = some after ∧ Follows tree after (place.replace forest) := by
  obtain ⟨parent, owner, before, later, all, hi⟩ := hat.inside h
  obtain ⟨_, _, after, _, ha, hr, hholds⟩ := hi.replace h hl hh
  refine ⟨after, ha, hr.linked, hholds, fun htree => ?_⟩
  exact MarkedApart.replaceRun? hl apart (htree.weaken [id]) h hi.owner (by simp [hi.children]) ha

/-- A document takes the place of all nodes. -/
theorem Linked.takesDocument {fragment : Arena} (h : tree.Linked []) (hl : fragment.Linked [])
    (hh : fragment.Holds forest) (apart : fragment.MarkedApart []) :
    ∃ after, tree.replaceDocument? fragment = some after ∧ Follows tree after forest := by
  obtain ⟨after, ha, hafter⟩ := h.replaceDocument hl
  exact ⟨after, ha, hafter, hh.replaceDocument ha, fun htree =>
    MarkedApart.replaceDocument? hl apart htree ha⟩

/-- Resolving an include in the arena changes it as resolving it in the forest changes the forest,
and comes with the same notices. -/
theorem At.resolveInclude (h : tree.Linked []) (hat : tree.At place id) (context : Context)
    (run : Run) :
    ∃ result, tree.resolveInclude? context run id =
        some ((resolveInclude context run place).1, result) ∧
      Follows tree result (resolveInclude context run place).2 := by
  obtain ⟨removed, hr, gone⟩ := hat.detach h
  obtain ⟨_, _, _, _, _, hi⟩ := hat.inside h
  cases hi.lists with
  | @cons _ _ node _ _ _ _ _ _ hn hc hp hchildren _ =>
    unfold Arena.resolveInclude? MarkupTemplate.resolveInclude
    simp only [hn, Option.bind_eq_bind, Option.bind_some, ArenaNode.element?_of_content hc, hr,
      h.bindArguments?_eq hchildren]
    cases place.content.element?.bind (·.setting? "src".toList) with
    | none => exact ⟨removed, rfl, gone⟩
    | some source =>
      dsimp only
      cases context.template source with
      | error error => exact ⟨removed, rfl, gone⟩
      | ok template =>
        dsimp only
        rcases bindArguments source place.children
          { run with expanded := some source :: run.expanded } template with ⟨run, _ | bound⟩
        · exact ⟨removed, rfl, gone⟩
        · obtain ⟨fragment, hf, hl, hh, apart⟩ := run.readArena?_eq bound
          dsimp only
          rw [hf, Option.bind_some]
          dsimp only
          cases isDocument template with
          | true =>
            obtain ⟨result, ha, follows⟩ := h.takesDocument hl hh apart
            exact ⟨result, by rw [ha]; rfl, follows⟩
          | false =>
            obtain ⟨result, ha, follows⟩ := hat.replace h hl hh apart
            exact ⟨result, by rw [ha]; rfl, follows⟩

end Places

end Arena

theorem bindArguments_notices (source : Text) (children : Forest) (run : Run) (template : Text) :
    ∃ notices, (bindArguments source children run template).1 = { run with notices } := by
  induction children generalizing run template with
  | nil => exact ⟨run.notices, rfl⟩
  | node content children next _ ih =>
    unfold bindArguments
    cases content with
    | element e =>
      dsimp only
      split
      next =>
        cases e.attributes with
        | nil => exact ⟨_, rfl⟩
        | cons attr attributes => exact ih run _
      next => exact ih (run.note _) _
    | text shown =>
      dsimp only
      split
      next => exact ih run _
      next => exact ih (run.note _) _
    | verbatim => exact ih run _

/-- Resolving an include logs it, once, and changes nothing else of the run but the notices. -/
theorem resolveInclude_logs (context : Context) (run : Run) (place : Place) :
    ∃ asked notices, (resolveInclude context run place).1 =
      { run with expanded := asked :: run.expanded, notices } := by
  unfold resolveInclude
  dsimp only
  cases place.content.element?.bind (·.setting? "src".toList) with
  | none => exact ⟨none, _, rfl⟩
  | some source =>
    refine ⟨some source, ?_⟩
    dsimp only
    cases context.template source with
    | error error => exact ⟨_, rfl⟩
    | ok template =>
      dsimp only
      obtain ⟨notices, hb⟩ := bindArguments_notices source place.children
        { run with expanded := some source :: run.expanded } template
      rcases hp : bindArguments source place.children
        { run with expanded := some source :: run.expanded } template with ⟨after, _ | bound⟩
      all_goals
        rw [hp] at hb
        obtain rfl := hb
        exact ⟨_, rfl⟩

/-- The includes of a forest expanded with the steps that a run has left. -/
def expandAll (context : Context) (run : Run) (forest : Forest) : Pass :=
  match run.budget with
  | .remaining steps => expandIncludes context steps run forest
  | .spent => (run, forest)

theorem resolveTags_eq (context : Context) (run : Run) (forest : Forest) :
    resolveTags context run forest =
      let pass := expandAll context run forest
      (pass.1.noteAll (resolveChains pass.1.model pass.2).2,
        (resolveChains pass.1.model pass.2).1) := rfl

section Expanding

variable {context : Context} {run : Run} {forest : Forest} {place : Place} {steps : Nat}

theorem expandAll_none (hf : firstInclude? forest = none) :
    expandAll context run forest = (run, forest) := by
  unfold expandAll
  split
  next hb =>
    unfold expandIncludes
    rw [hf, ← hb]
  next => rfl

theorem expandAll_giveUp (hf : firstInclude? forest = some place) (hb : run.budget = .remaining 0) :
    expandAll context run forest = (run.giveUp context, forest) := by
  unfold expandAll
  rw [hb]
  dsimp only
  unfold expandIncludes
  rw [hf]
  rfl

/-- Two runs that are the same stay so. -/
theorem Alongside.same (context : Context) : Alongside context context True Eq where
  template := rfl
  model h := h ▸ rfl
  bind h _ := h ▸ rfl
  note h _ _ := h ▸ rfl
  spent h := h ▸ Iff.rfl
  step {_ _ steps} h hb := ⟨steps, h ▸ hb, fun _ => h ▸ rfl⟩
  giveUp h hb _ := ⟨h ▸ hb, h ▸ rfl⟩

/-- What a run says of its budget during the expansions does not matter, as the steps are counted
apart. -/
theorem expandAll_step (hf : firstInclude? forest = some place)
    (hb : run.budget = .remaining (steps + 1)) :
    expandAll context run forest =
      let next := resolveInclude context { run with budget := .remaining steps } place
      expandAll context next.1 next.2 := by
  have sim := Alongside.same context
  have taken (asked : Option Text) : run.takeStep asked steps =
    { run with budget := .remaining steps }.takeStep asked steps := rfl
  obtain ⟨hr, hforest⟩ := sim.resolveInclude taken place
  obtain ⟨hrun, hlast⟩ := sim.expandIncludes hr (resolveInclude context run place).2 nofun
  obtain ⟨asked, notices, hlogs⟩ :=
    resolveInclude_logs context { run with budget := .remaining steps } place
  have left : (resolveInclude context { run with budget := .remaining steps } place).1.budget =
      .remaining steps := by rw [hlogs]
  unfold expandAll
  rw [hb]
  dsimp only
  rw [left]
  dsimp only
  rw [expandIncludes, hf, hforest]
  exact Prod.ext hrun hlast.symm

end Expanding

namespace Arena

variable {tree middle result : Arena} {forest : Forest} {place : Place} {context : Context}
  {run after : Run} {steps : Nat}

/-- What expanding all includes comes to: each of them takes a step, and none is left but where no
step is. Where no loop is marked, the forest comes to the same. -/
structure Expands (context : Context) (run after : Run) (tree result : Arena) : Prop where
  linked : result.Linked []
  model : after.model = run.model
  asked : ∃ asked, after.expanded = asked ++ run.expanded ∧
    asked.length + after.budget.left = run.budget.left
  ended : after.budget = .spent ∨ ∀ id, ¬ result.IsOuter (·.isInclusion) id
  same {forest : Forest} : tree.Holds forest → tree.MarkedApart [] →
    after = (expandAll context run forest).1 ∧ result.Holds (expandAll context run forest).2 ∧
      result.MarkedApart []

/-- Where there is nothing to expand, or no step for it, all stays as it is. -/
theorem Expands.unchanged (h : tree.Linked []) (hh : tree.Holds forest)
    (ended : run.budget = .spent ∨ ∀ id, ¬ tree.IsOuter (·.isInclusion) id)
    (same : tree.MarkedApart [] → expandAll context run forest = (run, forest)) :
    Expands context run run tree tree := by
  refine ⟨h, rfl, ⟨[], rfl, Nat.zero_add _⟩, ended, fun hforest apart => ?_⟩
  rw [hforest.unique hh, same apart]
  exact ⟨rfl, hh, apart⟩

/-- Without a step the first include makes the run give up. -/
theorem Expands.gaveUp (h : tree.Linked []) (hh : tree.Holds forest)
    (hb : run.budget = .remaining 0)
    (same : tree.MarkedApart [] → firstInclude? forest = some place) :
    Expands context run (run.giveUp context) tree tree := by
  refine ⟨h, rfl, ⟨[], rfl, by rw [hb]; rfl⟩, .inl rfl, fun hforest apart => ?_⟩
  rw [hforest.unique hh, expandAll_giveUp (same apart) hb]
  exact ⟨rfl, hh, apart⟩

/-- More includes after the first one, which takes a step. -/
theorem Expands.afterStep (hh : tree.Holds forest) (hb : run.budget = .remaining (steps + 1))
    (same : tree.MarkedApart [] → firstInclude? forest = some place)
    (follows : Follows tree middle
      (resolveInclude context { run with budget := .remaining steps } place).2)
    (rest : Expands context (resolveInclude context { run with budget := .remaining steps } place).1
      after middle result) :
    Expands context run after tree result := by
  obtain ⟨asked, notices, hlogs⟩ :=
    resolveInclude_logs context { run with budget := .remaining steps } place
  refine ⟨rest.linked, ?_, ?_, rest.ended, fun hforest apart => ?_⟩
  · rw [rest.model, hlogs]
  · obtain ⟨others, he, hlen⟩ := rest.asked
    rw [hlogs] at he hlen
    refine ⟨others ++ [asked], ?_, ?_⟩
    · rw [he, List.append_assoc]
      rfl
    · rw [hb, List.length_append, List.length_singleton]
      simp only [Budget.left] at hlen ⊢
      omega
  · rw [hforest.unique hh, expandAll_step (same apart) hb]
    exact rest.same follows.holds (follows.apart apart)

/-- Expanding includes comes to an end after as many turns as there are steps, and is progress
exactly if it takes a step. -/
theorem Linked.expandIncludes? (h : tree.Linked []) (context : Context) (run : Run)
    (progressed : Bool) :
    ∃ expanded after result, Expands context run after tree result ∧
      (∀ turns, run.budget.left < turns →
        Arena.expandIncludes? context turns progressed run tree = some (expanded, after, result)) ∧
      ((expanded = progressed ∧ result = tree ∧ after.budget.left = run.budget.left) ∨
        (expanded = true ∧ after.budget.left < run.budget.left)) := by
  induction hleft : run.budget.left using Nat.strongRecOn generalizing run tree progressed with
  | ind left ih =>
    subst hleft
    have turn {left turns : Nat} (ht : left < turns) : ∃ rest, turns = rest + 1 :=
      Nat.exists_eq_succ_of_ne_zero (Nat.ne_zero_of_lt ht)
    obtain ⟨forest, hh⟩ := h.exists_holds
    cases hb : run.budget with
    | spent =>
      have same : expandAll context run forest = (run, forest) := by rw [expandAll, hb]
      refine ⟨progressed, run, tree, .unchanged h hh (.inl hb) fun _ => same, fun turns ht => ?_,
        .inl ⟨rfl, rfl, by rw [hb]⟩⟩
      obtain ⟨turns, rfl⟩ := turn ht
      simp only [Arena.expandIncludes?, hb]
    | remaining steps =>
      rcases hh.find_outer h (·.isInclusion) with
        ⟨hf, hnone, same⟩ | ⟨place, id, e, hf, hat, hplace, _, _, same⟩
      · refine ⟨progressed, run, tree, .unchanged h hh (.inr hnone) fun apart =>
          expandAll_none (same apart), fun turns ht => ?_, .inl ⟨rfl, rfl, by rw [hb]⟩⟩
        obtain ⟨turns, rfl⟩ := turn ht
        simp only [Arena.expandIncludes?, hb, hf, Option.bind_eq_bind, Option.bind_some]
      · cases steps with
        | zero =>
          refine ⟨progressed, run.giveUp context, tree, .gaveUp h hh hb same, fun turns ht => ?_,
            .inl ⟨rfl, rfl, rfl⟩⟩
          obtain ⟨turns, rfl⟩ := turn ht
          simp only [Arena.expandIncludes?, hb, hf, Option.bind_eq_bind, Option.bind_some]
          rfl
        | succ steps =>
          -- The first include takes a step, and the others are expanded with one step less.
          let taken : Run := { run with budget := .remaining steps }
          obtain ⟨middle, hm, follows⟩ := hat.resolveInclude h context taken
          obtain ⟨asked, notices, hlogs⟩ := resolveInclude_logs context taken place
          have hleft : (resolveInclude context taken place).1.budget.left = steps := by
            rw [hlogs]
            rfl
          have fewer : steps < run.budget.left := by
            rw [hb]
            exact Nat.lt_succ_self steps
          obtain ⟨expanded, after, result, expands, ended, progress⟩ :=
            ih steps fewer follows.linked (resolveInclude context taken place).1 true hleft
          obtain ⟨rfl, hle⟩ : expanded = true ∧ after.budget.left ≤ steps := by
            rcases progress with ⟨he, _, hsame⟩ | ⟨he, hlt⟩
            · exact ⟨he, Nat.le_of_eq hsame⟩
            · exact ⟨he, Nat.le_of_lt hlt⟩
          refine ⟨true, after, result, .afterStep hh hb same follows expands, fun turns ht => ?_,
            .inr ⟨rfl, Nat.lt_succ_of_le hle⟩⟩
          obtain ⟨turns, rfl⟩ := turn ht
          simp only [Arena.expandIncludes?, hb, hf, Option.bind_eq_bind, Option.bind_some]
          rw [hm, Option.bind_some]
          exact ended turns (Nat.lt_of_succ_lt_succ ht)

end Arena

end MarkupTemplate
