import MarkupTemplate.Proofs.Render.VerbosityTold
import MarkupTemplate.Proofs.Render.LoopVisits

namespace MarkupTemplate

/-- Expanding the first include outside of loops again and again, one is found after so many
steps. -/
inductive ComesShort (context : Context) : Nat → Run → Forest → Prop
  | here {run : Run} {forest : Forest} {place : Place} :
      firstInclude? forest = some place → ComesShort context 0 run forest
  | later {steps : Nat} {run : Run} {forest : Forest} {place : Place} :
      firstInclude? forest = some place →
      ComesShort context steps (resolveInclude context run place).1
        (resolveInclude context run place).2 →
      ComesShort context (steps + 1) run forest

/-- A render reads this, and resolves its tags next: the document itself or an iteration of a loop
that it comes to. -/
inductive RendersRead (context : Context) (model : Model) (compiled : Text) : Pass → Prop
  | document : RendersRead context model compiled ((Run.start context model).read compiled)
  | iteration {outer read : Pass} {before : Text} : RendersRead context model compiled outer →
      Reads context False (resolveTags context outer.1 outer.2) before read →
      RendersRead context model compiled read

/-- A render finds an include outside of loops with no step left for it. -/
def RunsShort (context : Context) (model : Model) (compiled : Text) : Prop :=
  ∃ read steps, RendersRead context model compiled read ∧ read.1.budget = .remaining steps ∧
    ComesShort context steps read.1 read.2

/-- The steps that are left. -/
def Budget.left : Budget → Nat
  | .remaining steps => steps
  | .spent => 0

/-- The expansions of a run and the steps left are as many as it may make, and that the budget ran
out is noted exactly if it did. -/
structure Accounted (context : Context) (run : Run) : Prop where
  verbosity : run.verbosity = context.verbosity
  steps : run.expanded.length + run.budget.left = context.maxSteps
  gaveUp : run.notices.filter Notice.isGaveUp =
    if run.budget = .spent then Notice.told context.verbosity [.gaveUp context.maxSteps] else []

namespace Accounted

variable {context : Context} {run : Run}

theorem start (context : Context) (model : Model) : Accounted context (.start context model) :=
  ⟨rfl, Nat.zero_add _, rfl⟩

theorem filter_note (run : Run) (notice : Notice) :
    (run.note notice).notices.filter Notice.isGaveUp =
      Notice.told run.verbosity ([notice].filter Notice.isGaveUp) ++
        run.notices.filter Notice.isGaveUp := by
  rw [Run.note, List.filter_append, Notice.told, Notice.told, List.filter_filter,
    List.filter_filter]
  simp only [Bool.and_comm]

theorem note (h : Accounted context run) {notice : Notice} (hn : notice.isGaveUp = false) :
    Accounted context (run.note notice) where
  verbosity := h.verbosity
  steps := h.steps
  gaveUp := by
    rw [filter_note, List.filter_cons_of_neg (by simp [hn])]
    exact h.gaveUp

theorem takeStep (h : Accounted context run) {steps : Nat}
    (hb : run.budget = .remaining (steps + 1)) (asked : Option Text) :
    Accounted context (run.takeStep asked steps) where
  verbosity := h.verbosity
  steps := by
    have total := h.steps
    rw [hb] at total
    simp only [Run.takeStep, List.length_cons, Budget.left] at total ⊢
    omega
  gaveUp := by
    have none := h.gaveUp
    rw [hb] at none
    exact none

theorem giveUp (h : Accounted context run) (hb : run.budget = .remaining 0) :
    Accounted context (run.giveUp context) where
  verbosity := h.verbosity
  steps := by
    have total := h.steps
    rw [hb] at total
    exact total
  gaveUp := by
    have none := h.gaveUp
    rw [hb] at none
    change (run.note _).notices.filter Notice.isGaveUp = _
    rw [filter_note, none, h.verbosity]
    exact List.append_nil _

/-- A render keeps account of its steps: beside itself, it is related to itself by the invariant. -/
theorem alongside (context : Context) :
    Alongside context context True fun run run' => run' = run ∧ Accounted context run where
  template := rfl
  model h := by rw [h.1]
  bind h model := ⟨by rw [h.1], { h.2 with }⟩
  note h _ hn := ⟨by rw [h.1], h.2.note hn⟩
  spent h := by rw [h.1]
  step {run run' steps} h hb :=
    ⟨steps, h.1 ▸ hb, fun asked => ⟨by rw [h.1], h.2.takeStep hb asked⟩⟩
  giveUp h hb _ := ⟨h.1 ▸ hb, by rw [h.1], h.2.giveUp hb⟩

end Accounted

theorem resolveDocument_accounted {context : Context} {depth : Nat} {model : Model}
    {compiled : Text} {pass : Pass} (h : resolveDocument context depth model compiled = some pass) :
    Accounted context pass.1 := by
  have started : Accounted context (.start context model) := .start context model
  obtain ⟨_, _, _, accounted⟩ :=
    (Accounted.alongside context).resolveDocument ⟨rfl, started⟩ pass h fun hn => (hn trivial).elim
  exact accounted

section Shortage

variable {context : Context}

theorem expandIncludes_spent_iff {steps : Nat} {run : Run} {forest : Forest} :
    (expandIncludes context steps run forest).1.budget = .spent ↔
      ComesShort context steps run forest := by
  induction steps generalizing run forest with
  | zero =>
    unfold expandIncludes
    cases hf : firstInclude? forest with
    | none =>
      refine iff_of_false (by simp) fun h => ?_
      cases h with
      | here found => cases hf.symm.trans found
    | some place => exact iff_of_true rfl (.here hf)
  | succ steps ih =>
    unfold expandIncludes
    cases hf : firstInclude? forest with
    | none =>
      refine iff_of_false (by simp) fun h => ?_
      cases h with
      | later found => cases hf.symm.trans found
    | some place =>
      dsimp only
      rw [ih]
      constructor
      · exact .later hf
      · intro h
        cases h with
        | later found short =>
          cases hf.symm.trans found
          exact short

theorem resolveTags_spent_iff {run : Run} {forest : Forest} {steps : Nat}
    (h : run.budget = .remaining steps) :
    (resolveTags context run forest).1.budget = .spent ↔ ComesShort context steps run forest := by
  rw [← expandIncludes_spent_iff]
  unfold resolveTags
  rw [h]
  rfl

variable {model : Model} {compiled : Text}

/-- The tags of something that is read spend the budget only if the render runs short there. -/
theorem runsShort_of_resolveTags {read : Pass} (hread : RendersRead context model compiled read)
    (started : read.1.budget ≠ .spent)
    (ended : (resolveTags context read.1 read.2).1.budget = .spent) :
    RunsShort context model compiled := by
  cases hb : read.1.budget with
  | spent => exact absurd hb started
  | remaining steps => exact ⟨read, steps, hread, hb, (resolveTags_spent_iff hb).mp ended⟩

theorem runsShort_of_resolveLoops {depth : Nat} {read after : Pass}
    (hread : RendersRead context model compiled read) (started : read.1.budget ≠ .spent)
    (h : resolveLoops context depth (resolveTags context read.1 read.2).1
      (resolveTags context read.1 read.2).2 = some after) (ended : after.1.budget = .spent) :
    RunsShort context model compiled := by
  -- Unless the tags spend the budget, an iteration does, and that is one level less deep.
  induction depth generalizing read after with
  | zero =>
    by_cases hs : (resolveTags context read.1 read.2).1.budget = .spent
    · exact runsShort_of_resolveTags hread started hs
    · have left : after.1.budget ≠ .spent :=
        @replaceLoops_holds (fun run => run.budget ≠ .spent) _ (fun ho => by cases ho) _ _ _ h hs
      exact absurd ended left
  | succ depth ih =>
    by_cases hs : (resolveTags context read.1 read.2).1.budget = .spent
    · exact runsShort_of_resolveTags hread started hs
    · obtain ⟨_, inner, _, reads, left, hi, spent⟩ := replaceLoops_reads h hs ended
      exact ih (.iteration hread reads) left hi spent

/-- What a render that returns reads has an end, and spends no budget that is not spent in the
end. -/
theorem RendersRead.ends {read : Pass} (hread : RendersRead context model compiled read)
    {depth : Nat} {after : Pass}
    (h : resolveLoops context depth (documentPass context model compiled).1
      (documentPass context model compiled).2 = some after) :
    ∃ inside, resolveLoops context depth (resolveTags context read.1 read.2).1
        (resolveTags context read.1 read.2).2 = some inside ∧
      (inside.1.budget = .spent → after.1.budget = .spent) := by
  induction hread with
  | document => exact ⟨after, h, id⟩
  | iteration _ reads ih =>
    obtain ⟨outside, ho, hs⟩ := ih
    obtain ⟨inside, hi, part⟩ := reads.ends ho
    exact ⟨inside, hi, fun spent => hs (part.spent spent)⟩

/-- A render that returns has spent its budget in the end exactly if it ran short. -/
theorem resolveDocument_spent_iff {depth : Nat} {pass : Pass}
    (h : resolveDocument context depth model compiled = some pass) :
    pass.1.budget = .spent ↔ RunsShort context model compiled := by
  rw [resolveDocument_eq] at h
  obtain ⟨after, ha, h⟩ := Option.bind_eq_some_iff.mp h
  cases Option.some.inj h
  constructor
  · intro ended
    have started : ((Run.start context model).read compiled).1.budget ≠ .spent := nofun
    exact runsShort_of_resolveLoops .document started ha ended
  · rintro ⟨read, steps, hread, hb, short⟩
    obtain ⟨inside, hi, hs⟩ := hread.ends ha
    have tags := (resolveTags_spent_iff hb).mpr short
    exact hs (resolveLoops_spent hi tags)

end Shortage

/-- The second run is the same as the first one, with so many more steps left. -/
structure MoreLeft (more : Nat) (run run' : Run) : Prop where
  model : run'.model = run.model
  verbosity : run'.verbosity = run.verbosity
  notices : run'.notices = run.notices
  expanded : run'.expanded = run.expanded
  budget : ∃ steps, run.budget = .remaining steps ∧ run'.budget = .remaining (steps + more)

namespace MoreLeft

/-- With more steps a render does the same, as long as it needs no more. -/
theorem alongside (context : Context) (more : Nat) :
    Alongside context { context with maxSteps := context.maxSteps + more } False
      (MoreLeft more) where
  template := rfl
  model h := h.model
  bind h _ := { h with model := rfl }
  note h notice _ :=
    { h with notices := by rw [Run.note, Run.note, h.verbosity, h.notices] }
  spent h := by
    obtain ⟨steps, hb, hb'⟩ := h.budget
    exact iff_of_false (by simp [hb']) (by simp [hb])
  step {run run' steps} h hb := by
    obtain ⟨_, hs, hb'⟩ := h.budget
    cases hb.symm.trans hs
    refine ⟨steps + more, by rw [hb', Nat.add_right_comm], fun asked => ?_⟩
    exact
      { h with
        expanded := congrArg (asked :: ·) h.expanded
        budget := ⟨steps, rfl, rfl⟩ }
  giveUp _ _ hn := hn.elim

theorem start (context : Context) (more : Nat) (model : Model) :
    MoreLeft more (.start context model)
      (.start { context with maxSteps := context.maxSteps + more } model) :=
  ⟨rfl, rfl, rfl, rfl, context.maxSteps, rfl, rfl⟩

end MoreLeft

/-- A render that does not run short is the same with more steps. -/
theorem render?_more {context : Context} {depth : Nat} {model : Model} {compiled : Text}
    {rendering : Rendering} (h : render? context depth model compiled = some rendering)
    (enough : ¬ RunsShort context model compiled) (more : Nat) :
    render? { context with maxSteps := context.maxSteps + more } depth model compiled =
      some rendering := by
  rw [render?_eq] at h ⊢
  obtain ⟨⟨run, forest⟩, hd, rfl⟩ := Option.map_eq_some_iff.mp h
  have sim := MoreLeft.alongside context more
  obtain ⟨run', hd', related⟩ := sim.resolveDocument (.start context more model) _ hd
    fun _ spent => enough ((resolveDocument_spent_iff hd).mp spent)
  have last := sim.missing related forest
  rw [hd', Option.map_some, rendered, rendered, related.model, last.notices, related.expanded]

theorem filter_rendered {context : Context} {run : Run} (h : Accounted context run)
    (forest : Forest) :
    (rendered (run, forest)).notices.filter Notice.isGaveUp =
      if run.budget = .spent then Notice.told context.verbosity [.gaveUp context.maxSteps]
      else [] := by
  have ⟨_, last⟩ := (Accounted.alongside context).missing ⟨rfl, h⟩ forest
  have counted := last.gaveUp
  change ((run.noteAll (missing (run, forest))).notices.reverse).filter Notice.isGaveUp = _
  rw [List.filter_reverse, counted]
  have same : (run.noteAll (missing (run, forest))).budget = run.budget := rfl
  rw [same]
  split
  next => rw [← Notice.told_reverse, List.reverse_singleton]
  next => rfl

/-- A render makes at most as many include expansions as it may. It notes at most once that it gave
up and, unless nothing is told, exactly if it found an include outside of loops with no step left
for it; if it did not, it is the same with any more steps. -/
theorem render?_budget {context : Context} {depth : Nat} {model : Model} {compiled : Text}
    {rendering : Rendering} (h : render? context depth model compiled = some rendering) :
    rendering.expanded.length ≤ context.maxSteps ∧
      (rendering.notices.filter Notice.isGaveUp).length ≤ 1 ∧
      (1 ≤ context.verbosity.level →
        (.gaveUp context.maxSteps ∈ rendering.notices ↔ RunsShort context model compiled)) ∧
      (¬ RunsShort context model compiled → ∀ maxSteps, context.maxSteps ≤ maxSteps →
        render? { context with maxSteps } depth model compiled = some rendering) := by
  have again := h
  rw [render?_eq] at h
  obtain ⟨⟨run, forest⟩, hd, rfl⟩ := Option.map_eq_some_iff.mp h
  have accounted := resolveDocument_accounted hd
  have noticed := filter_rendered accounted forest
  refine ⟨?_, ?_, fun tells => ?_, fun enough maxSteps le => ?_⟩
  · have total := accounted.steps
    change run.expanded.reverse.length ≤ _
    rw [List.length_reverse]
    exact Nat.le.intro total
  · rw [noticed]
    split
    next => exact List.length_filter_le ..
    next => exact Nat.zero_le 1
  · have told : Notice.told context.verbosity [.gaveUp context.maxSteps] =
        [.gaveUp context.maxSteps] := by
      refine List.filter_eq_self.mpr fun notice hn => ?_
      rw [List.mem_singleton.mp hn, Notice.tells_eq]
      exact decide_eq_true tells
    rw [← resolveDocument_spent_iff hd]
    have found : .gaveUp context.maxSteps ∈ (rendered (run, forest)).notices ↔
        .gaveUp context.maxSteps ∈ (rendered (run, forest)).notices.filter Notice.isGaveUp := by
      rw [List.mem_filter]
      exact (and_iff_left rfl).symm
    rw [found, noticed, told]
    split
    next hs => exact iff_of_true List.mem_cons_self hs
    next hs => exact iff_of_false List.not_mem_nil hs
  · obtain ⟨more, rfl⟩ := Nat.exists_eq_add_of_le le
    exact render?_more again enough more

/-- A template without includes of its own, and so many steps. -/
def dashes (maxSteps : Nat) : Context :=
  { template := fun _ => .ok "-".toList, maxSteps }

/-- An include in a loop over two values. -/
def dashLoop : Text :=
  "<foreach val=\"x\" in=\"a\"><include src=\"p\"/></foreach>".toList

/-- The two values. -/
def dashModel : Model :=
  .ofValue (.record [("a".toList, .list [.null, .null])])

/-- One step is too few for two iterations with an include, two steps are enough. -/
theorem render?_budget_dashes :
    (∃ rendering, render? (dashes 1) 1 dashModel dashLoop = some rendering ∧
      rendering.expanded.length ≤ 1 ∧ (rendering.notices.filter Notice.isGaveUp).length ≤ 1 ∧
      RunsShort (dashes 1) dashModel dashLoop) ∧
    ∃ rendering, render? (dashes 2) 1 dashModel dashLoop = some rendering ∧
      ¬ RunsShort (dashes 2) dashModel dashLoop ∧
      ∀ maxSteps, 2 ≤ maxSteps →
        render? { dashes 2 with maxSteps } 1 dashModel dashLoop = some rendering := by
  constructor
  · have notices : (render? (dashes 1) 1 dashModel dashLoop).map (·.notices) =
        some [.gaveUp 1] := by decide +kernel
    obtain ⟨rendering, h, hn⟩ := Option.map_eq_some_iff.mp notices
    obtain ⟨expanded, once, gaveUp, _⟩ := render?_budget h
    have noted : .gaveUp (dashes 1).maxSteps ∈ rendering.notices := by
      rw [hn]
      exact List.mem_cons_self
    exact ⟨rendering, h, expanded, once, (gaveUp (by decide)).mp noted⟩
  · have notices : (render? (dashes 2) 1 dashModel dashLoop).map (·.notices) = some [] := by
      decide +kernel
    obtain ⟨rendering, h, hn⟩ := Option.map_eq_some_iff.mp notices
    obtain ⟨_, _, gaveUp, same⟩ := render?_budget h
    have enough : ¬ RunsShort (dashes 2) dashModel dashLoop := fun short => by
      have noted := (gaveUp (by decide)).mpr short
      rw [hn] at noted
      cases noted
    exact ⟨rendering, h, enough, same enough⟩

end MarkupTemplate
