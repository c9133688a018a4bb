import MarkupTemplate.Render.Rendering

namespace MarkupTemplate

/-- A pass over the loops of a forest, where it starts. -/
abbrev Pass := Run × Forest

/-- The pass over the loops inside an iteration, once its text is read and its tags are resolved. -/
def iterationPass (context : Context) (loop : Loop) (body : List Piece) (entry : Value × Value)
    (run : Run) : Pass :=
  let model := loop.bind run.model entry
  let read := Run.read { run with model } (iterationText model body)
  resolveTags context read.1 read.2

/-- The pieces of the body of a loop. -/
def bodyPieces (body : Forest) : List Piece :=
  body.pieces fun content _ => content.isElement (·.isLoop)

/-- The pass over the loops of the document itself. -/
def documentPass (context : Context) (model : Model) (compiled : Text) : Pass :=
  let read := (Run.start context model).read compiled
  resolveTags context read.1 read.2

theorem iterate_cons (context : Context) (inner : Run → Forest → Option Pass) (loop : Loop)
    (body : List Piece) (entry : Value × Value) (entries : List (Value × Value)) (run : Run) :
    iterate context inner loop body (entry :: entries) run =
      (inner (iterationPass context loop body entry run).1
        (iterationPass context loop body entry run).2).bind fun first =>
          (iterate context inner loop body entries first.1).bind fun rest =>
            some (rest.1, first.2 ++ rest.2) := rfl

/-- Iterations come to an end if the first one does, and then the others from where it has left. -/
theorem iterate_cons_eq_some_iff {context : Context} {inner : Run → Forest → Option Pass}
    {loop : Loop} {body : List Piece} {entry : Value × Value} {entries : List (Value × Value)}
    {run : Run} {pass : Pass} :
    iterate context inner loop body (entry :: entries) run = some pass ↔
      ∃ first rest, inner (iterationPass context loop body entry run).1
          (iterationPass context loop body entry run).2 = some first ∧
        iterate context inner loop body entries first.1 = some rest ∧
        (rest.1, first.2 ++ rest.2) = pass := by
  simp only [iterate_cons, Option.bind_eq_some_iff, Option.some.injEq, exists_and_left]

theorem resolveLoop_of_read {context : Context} {inner : Run → Forest → Option Pass} {run : Run}
    {element : Element} {body : Forest} {loop : Loop} (h : Loop.read run.model element = .ok loop) :
    resolveLoop context inner run element body =
      iterate context inner loop (bodyPieces body) loop.entries run := by
  simp only [resolveLoop, h]
  rfl

theorem resolveLoop_of_error {context : Context} {inner : Run → Forest → Option Pass} {run : Run}
    {element : Element} {body : Forest} {notice : Notice}
    (h : Loop.read run.model element = .error notice) :
    resolveLoop context inner run element body = some (run.note notice, .nil) := by
  simp only [resolveLoop, h]

theorem replaceLoops_loop {output : Run → Element → Forest → Option Pass} {content : Content}
    {children next : Forest} {run : Run} {element : Element} (h : content.loop? = some element) :
    replaceLoops output (.node content children next) run =
      (output run element children).bind fun inside =>
        (replaceLoops output next inside.1).bind fun rest =>
          some (rest.1, inside.2 ++ rest.2) := by
  simp only [replaceLoops, h]
  rfl

theorem replaceLoops_loop_eq_some_iff {output : Run → Element → Forest → Option Pass}
    {content : Content} {children next : Forest} {run : Run} {element : Element} {pass : Pass}
    (h : content.loop? = some element) :
    replaceLoops output (.node content children next) run = some pass ↔
      ∃ inside rest, output run element children = some inside ∧
        replaceLoops output next inside.1 = some rest ∧ (rest.1, inside.2 ++ rest.2) = pass := by
  simp only [replaceLoops_loop h, Option.bind_eq_some_iff, Option.some.injEq, exists_and_left]

theorem replaceLoops_other {output : Run → Element → Forest → Option Pass} {content : Content}
    {children next : Forest} {run : Run} (h : content.loop? = none) :
    replaceLoops output (.node content children next) run =
      (replaceLoops output children run).bind fun inside =>
        (replaceLoops output next inside.1).bind fun rest =>
          some (rest.1, .node content inside.2 rest.2) := by
  simp only [replaceLoops, h]
  rfl

theorem replaceLoops_other_eq_some_iff {output : Run → Element → Forest → Option Pass}
    {content : Content} {children next : Forest} {run : Run} {pass : Pass}
    (h : content.loop? = none) :
    replaceLoops output (.node content children next) run = some pass ↔
      ∃ inside rest, replaceLoops output children run = some inside ∧
        replaceLoops output next inside.1 = some rest ∧
        (rest.1, .node content inside.2 rest.2) = pass := by
  simp only [replaceLoops_other h, Option.bind_eq_some_iff, Option.some.injEq, exists_and_left]

/-- What is true of a run before a loop stays true in its iterations and after them. -/
structure LoopInvariant (context : Context) (holds : Run → Prop) : Prop where
  note : ∀ {run : Run} (notice : Notice), holds run → holds (run.note notice)
  iteration : ∀ {start run : Run} {element : Element} {loop : Loop} {body : List Piece}
    {entry : Value × Value}, holds start → Loop.read start.model element = .ok loop →
    entry ∈ loop.entries → holds run → holds (iterationPass context loop body entry run).1

section Invariant

variable {context : Context} {holds : Run → Prop}

theorem iterate_holds {inner : Run → Forest → Option Pass}
    (inside : ∀ {run forest pass}, inner run forest = some pass → holds run → holds pass.1)
    {loop : Loop} {body : List Piece} {entries : List (Value × Value)}
    (iteration : ∀ {entry run}, entry ∈ entries → holds run →
      holds (iterationPass context loop body entry run).1)
    {run : Run} {pass : Pass} (h : iterate context inner loop body entries run = some pass)
    (hr : holds run) : holds pass.1 := by
  induction entries generalizing run pass with
  | nil =>
    cases Option.some.inj h
    exact hr
  | cons entry entries ih =>
    obtain ⟨first, rest, hf, hrest, rfl⟩ := iterate_cons_eq_some_iff.mp h
    have hfirst := inside hf (iteration List.mem_cons_self hr)
    have last := ih (fun he => iteration (List.mem_cons_of_mem _ he)) hrest hfirst
    exact last

theorem resolveLoop_holds (invariant : LoopInvariant context holds)
    {inner : Run → Forest → Option Pass}
    (inside : ∀ {run forest pass}, inner run forest = some pass → holds run → holds pass.1)
    {run : Run} {element : Element} {body : Forest} {pass : Pass}
    (h : resolveLoop context inner run element body = some pass) (hr : holds run) :
    holds pass.1 := by
  cases hread : Loop.read run.model element with
  | error notice =>
    rw [resolveLoop_of_error hread] at h
    cases Option.some.inj h
    exact invariant.note notice hr
  | ok loop =>
    rw [resolveLoop_of_read hread] at h
    exact iterate_holds inside (fun he h => invariant.iteration hr hread he h) h hr

theorem replaceLoops_holds {output : Run → Element → Forest → Option Pass}
    (outputs : ∀ {run element body pass}, output run element body = some pass → holds run →
      holds pass.1)
    {forest : Forest} {run : Run} {pass : Pass} (h : replaceLoops output forest run = some pass)
    (hr : holds run) : holds pass.1 := by
  induction forest generalizing run pass with
  | nil =>
    cases Option.some.inj h
    exact hr
  | node content children next ihc ihn =>
    cases hl : content.loop? with
    | some element =>
      obtain ⟨inside, rest, hi, hrest, rfl⟩ := (replaceLoops_loop_eq_some_iff hl).mp h
      have last := ihn hrest (outputs hi hr)
      exact last
    | none =>
      obtain ⟨inside, rest, hi, hrest, rfl⟩ := (replaceLoops_other_eq_some_iff hl).mp h
      have last := ihn hrest (ihc hi hr)
      exact last

theorem resolveLoops_holds (invariant : LoopInvariant context holds) {depth : Nat} {run : Run}
    {forest : Forest} {pass : Pass} (h : resolveLoops context depth run forest = some pass)
    (hr : holds run) : holds pass.1 := by
  induction depth generalizing run forest pass with
  | zero => exact replaceLoops_holds (fun ho => by cases ho) h hr
  | succ depth ih =>
    have outputs {run : Run} {element : Element} {body : Forest} {pass : Pass}
        (ho : resolveLoop context (resolveLoops context depth) run element body = some pass)
        (hb : holds run) : holds pass.1 := resolveLoop_holds invariant ih ho hb
    exact replaceLoops_holds outputs h hr

end Invariant

theorem resolveTags_spent {context : Context} {run : Run} {forest : Forest}
    (h : run.budget = .spent) : (resolveTags context run forest).1.budget = .spent := by
  simp only [resolveTags, h]
  exact h

theorem iterationPass_spent {context : Context} {loop : Loop} {body : List Piece}
    {entry : Value × Value} {run : Run} (h : run.budget = .spent) :
    (iterationPass context loop body entry run).1.budget = .spent := by
  unfold iterationPass
  apply resolveTags_spent
  exact h

/-- A pass that begins without budget ends without. -/
theorem resolveLoops_spent {context : Context} {depth : Nat} {run : Run} {forest : Forest}
    {pass : Pass} (h : resolveLoops context depth run forest = some pass)
    (hs : run.budget = .spent) : pass.1.budget = .spent := by
  have invariant : LoopInvariant context fun run => run.budget = .spent :=
    ⟨fun _ hb => hb, fun _ _ _ hb => iterationPass_spent hb⟩
  exact resolveLoops_holds invariant h hs

theorem iterate_spent {context : Context} {depth : Nat} {loop : Loop} {body : List Piece}
    {entries : List (Value × Value)} {run : Run} {pass : Pass}
    (h : iterate context (resolveLoops context depth) loop body entries run = some pass)
    (hs : run.budget = .spent) : pass.1.budget = .spent :=
  @iterate_holds context (fun run => run.budget = .spent) _ resolveLoops_spent _ _ _
    (fun _ hb => iterationPass_spent hb) _ _ h hs

theorem choose_cons (model : Model) (branch : Branch) (branches : List Branch) :
    (choose model (branch :: branches)).1 =
      if (branch.element.verdict model).1 then branch.children
      else (choose model branches).1 := by
  rw [choose]
  split
  next h => rw [h]; rfl
  next h => rw [h]; rfl

theorem resolveChains_head {content : Content} {element : Element}
    (h : content.head? = some element) (model : Model) (children next : Forest) :
    (resolveChains model (.node content children next)).1 =
      (resolveChains model ((choose model (⟨element, children⟩ :: (links next next).1)).1 ++
        (links next next).2)).1 := by
  rw [resolveChains]
  split
  next other ho =>
    cases h.symm.trans ho
    rfl
  next hn => cases h.symm.trans hn

theorem resolveChains_loop {content : Content} (h : content.head? = none)
    (hl : content.isElement (·.isLoop) = true) (model : Model) (children next : Forest) :
    (resolveChains model (.node content children next)).1 =
      .node content children (resolveChains model next).1 := by
  rw [resolveChains]
  split
  next element he => cases h.symm.trans he
  next => rw [if_pos hl]

theorem resolveChains_other {content : Content} (h : content.head? = none)
    (hl : content.isElement (·.isLoop) = false) (model : Model) (children next : Forest) :
    (resolveChains model (.node content children next)).1 =
      .node content (resolveChains model children).1 (resolveChains model next).1 := by
  rw [resolveChains]
  split
  next element he => cases h.symm.trans he
  next => rw [if_neg (by rw [hl]; exact Bool.false_ne_true)]

theorem resolveDocument_eq (context : Context) (depth : Nat) (model : Model) (compiled : Text) :
    resolveDocument context depth model compiled =
      (resolveLoops context depth (documentPass context model compiled).1
        (documentPass context model compiled).2).bind fun resolved =>
          some (resolved.1, removeLinks resolved.2) := rfl

end MarkupTemplate
