import MarkupTemplate.Proofs.Render.IncludeExpansion

namespace MarkupTemplate

/-- The notice that the budget ran out. -/
def Notice.isGaveUp : Notice → Bool
  | .gaveUp _ => true
  | _ => false

/-- The run of a render that has found an include without a step left for it. -/
def Run.giveUp (context : Context) (run : Run) : Run :=
  { run.note (.gaveUp context.maxSteps) with budget := .spent }

/-- The run of a render that takes a step for an include. -/
def Run.takeStep (run : Run) (asked : Option Text) (steps : Nat) : Run :=
  { run with budget := .remaining steps, expanded := asked :: run.expanded }

/-- The notices of the placeholders that have no value in the end. -/
def missing (pass : Pass) : List Notice :=
  (unresolved pass.1.model pass.2.markup).map fun path => .unresolved (placeholderText path)

/-- The outcome of a render, from its last run and the document. -/
def rendered (pass : Pass) : Rendering :=
  ⟨substitute pass.1.model pass.2.markup, (pass.1.noteAll (missing pass)).notices.reverse,
    pass.1.expanded.reverse⟩

theorem render?_eq (context : Context) (depth : Nat) (model : Model) (compiled : Text) :
    render? context depth model compiled =
      (resolveDocument context depth model compiled).map rendered := by
  unfold render?
  cases resolveDocument context depth model compiled <;> rfl

/-- What a render does to its run keeps the relation. If `spends` is false, the relation says
nothing of renders that run out of budget. -/
structure Alongside (context context' : Context) (spends : Prop)
    (related : Run → Run → Prop) : Prop where
  template : context'.template = context.template
  model : ∀ {run run'}, related run run' → run'.model = run.model
  bind : ∀ {run run'}, related run run' → ∀ model, related { run with model } { run' with model }
  note : ∀ {run run'}, related run run' → ∀ {notice : Notice}, notice.isGaveUp = false →
    related (run.note notice) (run'.note notice)
  spent : ∀ {run run'}, related run run' → (run'.budget = .spent ↔ run.budget = .spent)
  step : ∀ {run run' steps}, related run run' → run.budget = .remaining (steps + 1) →
    ∃ steps', run'.budget = .remaining (steps' + 1) ∧
      ∀ asked, related (run.takeStep asked steps) (run'.takeStep asked steps')
  giveUp : ∀ {run run'}, related run run' → run.budget = .remaining 0 → spends →
    run'.budget = .remaining 0 ∧ related (run.giveUp context) (run'.giveUp context')

namespace Run

theorem noteAll_cons (run : Run) (notice : Notice) (notices : List Notice) :
    run.noteAll (notice :: notices) = (run.note notice).noteAll notices := by
  cases ht : run.verbosity.tells notice.level <;>
    simp [noteAll, note, Notice.told, ht]

end Run

/-- What a chain has to tell is not that the budget ran out. -/
theorem isGaveUp_of_mem_verdict {model : Model} {e : Element} {notice : Notice}
    (h : notice ∈ (e.verdict model).2) : notice.isGaveUp = false := by
  simp only [Element.verdict] at h
  split at h
  next => simp at h
  next =>
    split at h
    next =>
      rw [List.mem_singleton.mp h]
      rfl
    next =>
      split at h
      next =>
        rw [List.mem_singleton.mp h]
        rfl
      next => simp at h

theorem isGaveUp_of_mem_choose {model : Model} {branches : List Branch} {notice : Notice}
    (h : notice ∈ (choose model branches).2) : notice.isGaveUp = false := by
  induction branches with
  | nil => simp [choose] at h
  | cons branch branches ih =>
    rw [choose] at h
    split at h
    next notices hv =>
      have told : notice ∈ (branch.element.verdict model).2 := by rw [hv]; exact h
      exact isGaveUp_of_mem_verdict told
    next notices hv =>
      rcases List.mem_append.mp h with hn | hc
      · have told : notice ∈ (branch.element.verdict model).2 := by rw [hv]; exact hn
        exact isGaveUp_of_mem_verdict told
      · exact ih hc

theorem isGaveUp_of_mem_resolveChains {model : Model} {forest : Forest} {notice : Notice}
    (h : notice ∈ (resolveChains model forest).2) : notice.isGaveUp = false := by
  fun_induction resolveChains model forest with
  | case1 => simp at h
  | case2 content children next element hh chain chosen rest ih =>
    rcases List.mem_append.mp h with hc | hr
    · exact isGaveUp_of_mem_choose hc
    · exact ih hr
  | case3 content children next hh hl rest ih => exact ih h
  | case4 content children next hh hl inside rest ihc ihn =>
    rcases List.mem_append.mp h with hc | hr
    · exact ihc hc
    · exact ihn hr

theorem isGaveUp_of_read {model : Model} {e : Element} {notice : Notice}
    (h : Loop.read model e = .error notice) : notice.isGaveUp = false := by
  unfold Loop.read at h
  split at h
  next => cases h; rfl
  next =>
    split at h
    next => cases h; rfl
    next =>
      dsimp only at h
      split at h
      next => cases h; rfl
      next =>
        split at h
        next => cases h
        next =>
          split at h
          next => cases h; rfl
          next => cases h; rfl

namespace Alongside

variable {context context' : Context} {spends : Prop} {related : Run → Run → Prop}
variable {run run' : Run}

theorem noteAll (sim : Alongside context context' spends related) (h : related run run')
    {notices : List Notice} (hn : ∀ notice ∈ notices, notice.isGaveUp = false) :
    related (run.noteAll notices) (run'.noteAll notices) := by
  induction notices generalizing run run' with
  | nil => exact h
  | cons notice notices ih =>
    obtain ⟨hfirst, hrest⟩ := List.forall_mem_cons.mp hn
    rw [Run.noteAll_cons, Run.noteAll_cons]
    exact ih (sim.note h hfirst) hrest

theorem read (sim : Alongside context context' spends related) (h : related run run')
    (text : Text) : related (run.read text).1 (run'.read text).1 := by
  refine sim.noteAll h fun notice hn => ?_
  obtain ⟨warning, _, rfl⟩ := List.mem_map.mp hn
  rfl

/-- Binding arguments takes no step, so the budget is left out of it. -/
protected theorem bindArguments (sim : Alongside context context' spends related)
    {budget budget' : Budget}
    (h : related { run with budget := budget } { run' with budget := budget' }) (source : Text)
    (children : Forest) (template : Text) :
    related { (bindArguments source children run template).1 with budget := budget }
        { (bindArguments source children run' template).1 with budget := budget' } ∧
      (bindArguments source children run' template).2 =
        (bindArguments source children run template).2 := by
  induction children generalizing run run' template with
  | nil => exact ⟨h, rfl⟩
  | node content children next _ ih =>
    have noted {notice : Notice} (hn : notice.isGaveUp = false) :
        related { run.note notice with budget := budget }
          { run'.note notice with budget := budget' } := sim.note h hn
    unfold bindArguments
    cases content with
    | element e =>
      dsimp only
      split
      next =>
        cases e.attributes with
        | nil => exact ⟨noted rfl, rfl⟩
        | cons attr attributes => exact ih h _
      next => exact ih (noted rfl) _
    | text shown =>
      dsimp only
      split
      next => exact ih h _
      next => exact ih (noted rfl) _
    | verbatim => exact ih h _

/-- The run of a render that has logged an include. -/
abbrev logged (run : Run) (asked : Option Text) : Run :=
  { run with expanded := asked :: run.expanded }

protected theorem resolveInclude (sim : Alongside context context' spends related)
    {steps steps' : Nat}
    (h : ∀ asked, related (run.takeStep asked steps) (run'.takeStep asked steps')) (place : Place) :
    related { (resolveInclude context run place).1 with budget := .remaining steps }
        { (resolveInclude context' run' place).1 with budget := .remaining steps' } ∧
      (resolveInclude context' run' place).2 = (resolveInclude context run place).2 := by
  unfold resolveInclude
  rw [sim.template]
  dsimp only
  cases place.content.element?.bind (·.setting? "src".toList) with
  | none => exact ⟨sim.note (h none) rfl, rfl⟩
  | some source =>
    dsimp only
    cases context.template source with
    | error error => exact ⟨sim.note (h (some source)) rfl, rfl⟩
    | ok template =>
      dsimp only
      have started : related { logged run (some source) with budget := .remaining steps }
          { logged run' (some source) with budget := .remaining steps' } := h (some source)
      obtain ⟨hr, hb⟩ := sim.bindArguments started source place.children template
      rcases hp : bindArguments source place.children (logged run (some source)) template with
        ⟨after, bound⟩
      rcases hp' : bindArguments source place.children (logged run' (some source)) template with
        ⟨after', bound'⟩
      rw [hp, hp'] at hr hb
      obtain rfl : bound' = bound := hb
      cases bound' with
      | none => exact ⟨hr, rfl⟩
      | some bound => exact ⟨sim.read hr bound, rfl⟩

protected theorem expandIncludes (sim : Alongside context context' spends related)
    {steps steps' : Nat}
    (h : related { run with budget := .remaining steps } { run' with budget := .remaining steps' })
    (forest : Forest)
    (left : ¬ spends → (expandIncludes context steps run forest).1.budget ≠ .spent) :
    related (expandIncludes context steps run forest).1
        (expandIncludes context' steps' run' forest).1 ∧
      (expandIncludes context' steps' run' forest).2 =
        (expandIncludes context steps run forest).2 := by
  -- The runs still have the budgets from before all expansions; what counts are the steps.
  induction steps generalizing run run' steps' forest with
  | zero =>
    unfold expandIncludes at left ⊢
    cases hf : firstInclude? forest with
    | none => exact ⟨h, rfl⟩
    | some place =>
      rw [hf] at left
      by_cases hs : spends
      · obtain ⟨hb, hg⟩ := sim.giveUp h rfl hs
        cases hb
        exact ⟨hg, rfl⟩
      · exact absurd rfl (left hs)
  | succ steps ih =>
    cases hf : firstInclude? forest with
    | none =>
      unfold expandIncludes
      rw [hf]
      exact ⟨h, rfl⟩
    | some place =>
      obtain ⟨others, hb, taken⟩ := sim.step h rfl
      cases hb
      have both : ∀ asked, related (run.takeStep asked steps) (run'.takeStep asked others) := taken
      obtain ⟨hr, hforest⟩ := sim.resolveInclude both place
      unfold expandIncludes at left ⊢
      rw [hf] at left ⊢
      dsimp only at left ⊢
      rw [hforest]
      exact ih hr _ left

protected theorem resolveTags (sim : Alongside context context' spends related)
    (h : related run run') (forest : Forest)
    (left : ¬ spends → (resolveTags context run forest).1.budget ≠ .spent) :
    related (resolveTags context run forest).1 (resolveTags context' run' forest).1 ∧
      (resolveTags context' run' forest).2 = (resolveTags context run forest).2 := by
  have chains {first second : Run} (hr : related first second) (forest : Forest) :
      related (first.noteAll (resolveChains first.model forest).2)
          (second.noteAll (resolveChains second.model forest).2) ∧
        (resolveChains second.model forest).1 = (resolveChains first.model forest).1 := by
    rw [sim.model hr]
    exact ⟨sim.noteAll hr fun _ => isGaveUp_of_mem_resolveChains, rfl⟩
  unfold resolveTags at left ⊢
  cases hb : run.budget with
  | spent =>
    rw [(sim.spent h).mpr hb]
    exact chains h forest
  | remaining steps =>
    cases hb' : run'.budget with
    | spent => cases hb.symm.trans ((sim.spent h).mp hb')
    | remaining steps' =>
      rw [hb] at left
      have started : related { run with budget := .remaining steps }
          { run' with budget := .remaining steps' } := by
        rw [← hb, ← hb']
        exact h
      obtain ⟨hr, hforest⟩ := sim.expandIncludes started forest left
      dsimp only
      rw [hforest]
      exact chains hr _

/-- Where the first run spends nothing, or spending is allowed, the second run ends in the same
forest. -/
def Agrees (spends : Prop) (related : Run → Run → Prop) (first second : Option Pass) : Prop :=
  ∀ pass, first = some pass → (¬ spends → pass.1.budget ≠ .spent) →
    ∃ after, second = some (after, pass.2) ∧ related pass.1 after

theorem Agrees.both {first second : Option Pass} {rest rest' : Run → Option Pass}
    {join : Forest → Forest → Forest}
    (spent : ∀ {run pass}, rest run = some pass → run.budget = .spent → pass.1.budget = .spent)
    (h : Agrees spends related first second)
    (hr : ∀ {inside run'}, related inside run' →
      Agrees spends related (rest inside) (rest' run')) :
    Agrees spends related
      (first.bind fun inside => (rest inside.1).bind fun last =>
        some (last.1, join inside.2 last.2))
      (second.bind fun inside => (rest' inside.1).bind fun last =>
        some (last.1, join inside.2 last.2)) := by
  intro pass hp left
  obtain ⟨inside, hi, hp⟩ := Option.bind_eq_some_iff.mp hp
  obtain ⟨last, hl, hp⟩ := Option.bind_eq_some_iff.mp hp
  cases Option.some.inj hp
  have ending : ¬ spends → last.1.budget ≠ .spent := left
  obtain ⟨middle, hs, hm⟩ := h inside hi fun hn hb => ending hn (spent hl hb)
  obtain ⟨after, ha, hrel⟩ := hr hm last hl ending
  exact ⟨after, by rw [hs, Option.bind_some, ha, Option.bind_some], hrel⟩

protected theorem iterationPass (sim : Alongside context context' spends related)
    (h : related run run') (loop : Loop) (body : List Piece) (entry : Value × Value)
    (left : ¬ spends → (iterationPass context loop body entry run).1.budget ≠ .spent) :
    related (iterationPass context loop body entry run).1
        (iterationPass context' loop body entry run').1 ∧
      (iterationPass context' loop body entry run').2 =
        (iterationPass context loop body entry run).2 := by
  unfold iterationPass at left ⊢
  rw [sim.model h]
  have bound := sim.bind h (loop.bind run.model entry)
  exact sim.resolveTags (sim.read bound _) _ left

protected theorem iterate (sim : Alongside context context' spends related) {depth : Nat}
    (inner : ∀ {run run'}, related run run' → ∀ forest,
      Agrees spends related (resolveLoops context depth run forest)
        (resolveLoops context' depth run' forest))
    (loop : Loop) (body : List Piece) (entries : List (Value × Value)) (h : related run run') :
    Agrees spends related (iterate context (resolveLoops context depth) loop body entries run)
      (iterate context' (resolveLoops context' depth) loop body entries run') := by
  induction entries generalizing run run' with
  | nil =>
    intro pass hp _
    cases Option.some.inj hp
    exact ⟨run', rfl, h⟩
  | cons entry entries ih =>
    rw [iterate_cons, iterate_cons]
    refine Agrees.both (iterate_spent) (fun pass hp left => ?_) ih
    have tags : ¬ spends → (iterationPass context loop body entry run).1.budget ≠ .spent :=
      fun hn hb => left hn (resolveLoops_spent hp hb)
    obtain ⟨hr, hforest⟩ := sim.iterationPass h loop body entry tags
    rw [hforest]
    exact inner hr _ pass hp left

protected theorem resolveLoop (sim : Alongside context context' spends related) {depth : Nat}
    (inner : ∀ {run run'}, related run run' → ∀ forest,
      Agrees spends related (resolveLoops context depth run forest)
        (resolveLoops context' depth run' forest))
    (element : Element) (body : Forest) (h : related run run') :
    Agrees spends related
      (resolveLoop context (resolveLoops context depth) run element body)
      (resolveLoop context' (resolveLoops context' depth) run' element body) := by
  cases hr : Loop.read run.model element with
  | error notice =>
    have hr' : Loop.read run'.model element = .error notice := by rw [sim.model h, hr]
    rw [resolveLoop_of_error hr, resolveLoop_of_error hr']
    intro pass hp _
    cases Option.some.inj hp
    exact ⟨_, rfl, sim.note h (isGaveUp_of_read hr)⟩
  | ok loop =>
    have hr' : Loop.read run'.model element = .ok loop := by rw [sim.model h, hr]
    rw [resolveLoop_of_read hr, resolveLoop_of_read hr']
    exact sim.iterate inner loop (bodyPieces body) loop.entries h

protected theorem replaceLoops {output output' : Run → Element → Forest → Option Pass}
    (spent : ∀ {forest run pass}, replaceLoops output forest run = some pass →
      run.budget = .spent → pass.1.budget = .spent)
    (outputs : ∀ {run run'}, related run run' → ∀ element body,
      Agrees spends related (output run element body) (output' run' element body))
    (forest : Forest) (h : related run run') :
    Agrees spends related (replaceLoops output forest run)
      (replaceLoops output' forest run') := by
  induction forest generalizing run run' with
  | nil =>
    intro pass hp _
    cases Option.some.inj hp
    exact ⟨run', rfl, h⟩
  | node content children next ihc ihn =>
    cases hl : content.loop? with
    | some element =>
      rw [replaceLoops_loop hl, replaceLoops_loop hl]
      exact (outputs h element children).both spent ihn
    | none =>
      rw [replaceLoops_other hl, replaceLoops_other hl]
      exact (ihc h).both spent ihn

/-- Where the loops of a forest come to an end in the first render, they do so in the second one,
with the same forest and with runs that are still related. -/
protected theorem resolveLoops (sim : Alongside context context' spends related) (depth : Nat)
    (h : related run run') (forest : Forest) :
    Agrees spends related (resolveLoops context depth run forest)
      (resolveLoops context' depth run' forest) := by
  induction depth generalizing run run' forest with
  | zero =>
    have spent {forest : Forest} {run : Run} {pass : Pass}
        (hp : replaceLoops (fun _ _ _ => none) forest run = some pass)
        (hb : run.budget = .spent) : pass.1.budget = .spent :=
      @resolveLoops_spent context 0 run forest pass hp hb
    exact Alongside.replaceLoops spent (fun _ _ _ _ hp => by cases hp) forest h
  | succ depth ih =>
    have spent {forest : Forest} {run : Run} {pass : Pass}
        (hp : replaceLoops (resolveLoop context (resolveLoops context depth)) forest run =
          some pass)
        (hb : run.budget = .spent) : pass.1.budget = .spent :=
      @resolveLoops_spent context (depth + 1) run forest pass hp hb
    exact Alongside.replaceLoops spent
      (fun hr element body => sim.resolveLoop ih element body hr) forest h

/-- Renders that start with related runs have the same documents and end with related runs. -/
protected theorem resolveDocument (sim : Alongside context context' spends related) {model : Model}
    (h : related (.start context model) (.start context' model)) {depth : Nat} {compiled : Text} :
    Agrees spends related (resolveDocument context depth model compiled)
      (resolveDocument context' depth model compiled) := by
  intro pass hp left
  rw [resolveDocument_eq] at hp
  obtain ⟨last, hl, hp⟩ := Option.bind_eq_some_iff.mp hp
  cases Option.some.inj hp
  have ending : ¬ spends → last.1.budget ≠ .spent := left
  have tags : ¬ spends → (documentPass context model compiled).1.budget ≠ .spent :=
    fun hn hb => ending hn (resolveLoops_spent hl hb)
  obtain ⟨hr, hforest⟩ : related (documentPass context model compiled).1
      (documentPass context' model compiled).1 ∧
        (documentPass context' model compiled).2 = (documentPass context model compiled).2 := by
    unfold documentPass at tags ⊢
    exact sim.resolveTags (sim.read h compiled) _ tags
  obtain ⟨after, ha, hrel⟩ := sim.resolveLoops depth hr _ last hl ending
  refine ⟨after, ?_, hrel⟩
  rw [resolveDocument_eq, hforest, ha, Option.bind_some]

/-- The runs are still related once the last notices are told, which are the same. -/
protected theorem missing (sim : Alongside context context' spends related) (h : related run run')
    (forest : Forest) :
    related (run.noteAll (missing (run, forest)))
      (run'.noteAll (missing (run', forest))) := by
  have same : missing (run', forest) = missing (run, forest) := by
    rw [missing, sim.model h]
    rfl
  rw [same]
  refine sim.noteAll h fun notice hn => ?_
  obtain ⟨path, _, rfl⟩ := List.mem_map.mp hn
  rfl

end Alongside

end MarkupTemplate
