import MarkupTemplate.Engine
import MarkupTemplate.Proofs.Render.LoopPasses
import Mathlib.Order.WellFounded

namespace MarkupTemplate

/-- The iterations of a loop for these entries reach the pass: it starts an iteration, and the
iterations before it have ended. -/
inductive Loop.Begins (context : Context) (loop : Loop) (body : List Piece) :
    List (Value × Value) → Run → Pass → Prop
  | first {entry : Value × Value} {entries : List (Value × Value)} {run : Run} :
      loop.Begins context body (entry :: entries) run (iterationPass context loop body entry run)
  | later {entry : Value × Value} {entries : List (Value × Value)} {run after : Run} {depth : Nat}
      {output : Forest} {pass : Pass} :
      resolveLoops context depth (iterationPass context loop body entry run).1
        (iterationPass context loop body entry run).2 = some (after, output) →
      loop.Begins context body entries after pass →
      loop.Begins context body (entry :: entries) run pass

/-- A pass over the loops of a forest starts an iteration, and all loops before it have ended. -/
inductive Begins (context : Context) : Forest → Run → Pass → Prop
  | iteration {content : Content} {children next : Forest} {run : Run} {element : Element}
      {loop : Loop} {pass : Pass} :
      content.loop? = some element → Loop.read run.model element = .ok loop →
      loop.Begins context (bodyPieces children) loop.entries run pass →
      Begins context (.node content children next) run pass
  | afterLoop {content : Content} {children next output : Forest} {run after : Run} {depth : Nat}
      {element : Element} {pass : Pass} :
      content.loop? = some element →
      resolveLoop context (resolveLoops context depth) run element children = some (after, output) →
      Begins context next after pass → Begins context (.node content children next) run pass
  | inside {content : Content} {children next : Forest} {run : Run} {pass : Pass} :
      content.loop? = none → Begins context children run pass →
      Begins context (.node content children next) run pass
  | after {content : Content} {children next output : Forest} {run after : Run} {depth : Nat}
      {pass : Pass} :
      content.loop? = none → resolveLoops context depth run children = some (after, output) →
      Begins context next after pass → Begins context (.node content children next) run pass

/-- From this pass on, iterations are inside each other without end. -/
def NestsForever (context : Context) (start : Pass) : Prop :=
  ∃ passes : Nat → Pass, passes 0 = start ∧
    ∀ n, Begins context (passes n).2 (passes n).1 (passes (n + 1))

/-- The output of a loop element when loops may be so many levels inside each other. -/
def loopOutput (context : Context) : Nat → Run → Element → Forest → Option Pass
  | 0 => fun _ _ _ => none
  | depth + 1 => resolveLoop context (resolveLoops context depth)

theorem resolveLoops_eq (context : Context) (depth : Nat) (run : Run) (forest : Forest) :
    resolveLoops context depth run forest =
      replaceLoops (loopOutput context depth) forest run := by
  cases depth <;> rfl

theorem iterate_mono {context : Context} {inner wider : Run → Forest → Option Pass} {loop : Loop}
    {body : List Piece} (wide : ∀ {run forest pass}, inner run forest = some pass →
      wider run forest = some pass)
    {entries : List (Value × Value)} {run : Run} {pass : Pass}
    (h : iterate context inner loop body entries run = some pass) :
    iterate context wider loop body entries run = some pass := by
  induction entries generalizing run pass with
  | nil => exact h
  | cons entry entries ih =>
    obtain ⟨first, rest, hf, hr, h⟩ := iterate_cons_eq_some_iff.mp h
    exact iterate_cons_eq_some_iff.mpr ⟨first, rest, wide hf, ih hr, h⟩

theorem resolveLoop_mono {context : Context} {inner wider : Run → Forest → Option Pass}
    (wide : ∀ {run forest pass}, inner run forest = some pass → wider run forest = some pass)
    {run : Run} {element : Element} {body : Forest} {pass : Pass}
    (h : resolveLoop context inner run element body = some pass) :
    resolveLoop context wider run element body = some pass := by
  unfold resolveLoop at h ⊢
  split at h
  next => exact h
  next => exact iterate_mono wide h

theorem replaceLoops_mono {output wider : Run → Element → Forest → Option Pass}
    (wide : ∀ {run element body pass}, output run element body = some pass →
      wider run element body = some pass)
    {forest : Forest} {run : Run} {pass : Pass} (h : replaceLoops output forest run = some pass) :
    replaceLoops wider forest run = some pass := by
  induction forest generalizing run pass with
  | nil => exact h
  | node content children next ihc ihn =>
    cases hl : content.loop? with
    | some element =>
      obtain ⟨inside, rest, hi, hr, h⟩ := (replaceLoops_loop_eq_some_iff hl).mp h
      exact (replaceLoops_loop_eq_some_iff hl).mpr ⟨inside, rest, wide hi, ihn hr, h⟩
    | none =>
      obtain ⟨inside, rest, hi, hr, h⟩ := (replaceLoops_other_eq_some_iff hl).mp h
      exact (replaceLoops_other_eq_some_iff hl).mpr ⟨inside, rest, ihc hi, ihn hr, h⟩

theorem loopOutput_succ {context : Context} {depth : Nat} {run : Run} {element : Element}
    {body : Forest} {pass : Pass} (h : loopOutput context depth run element body = some pass) :
    loopOutput context (depth + 1) run element body = some pass := by
  induction depth generalizing run element body pass with
  | zero => simp [loopOutput] at h
  | succ depth ih =>
    refine resolveLoop_mono (fun {run forest pass} hi => ?_) h
    rw [resolveLoops_eq] at hi ⊢
    exact replaceLoops_mono ih hi

/-- A larger bound on the nesting changes nothing once the pass has ended. -/
theorem resolveLoops_mono {context : Context} {depth deeper : Nat} (le : depth ≤ deeper)
    {run : Run} {forest : Forest} {pass : Pass}
    (h : resolveLoops context depth run forest = some pass) :
    resolveLoops context deeper run forest = some pass := by
  induction le with
  | refl => exact h
  | step _ ih =>
    rw [resolveLoops_eq] at ih ⊢
    exact replaceLoops_mono loopOutput_succ ih

theorem resolveLoops_unique {context : Context} {depth other : Nat} {run : Run} {forest : Forest}
    {pass pass' : Pass} (h : resolveLoops context depth run forest = some pass)
    (h' : resolveLoops context other run forest = some pass') : pass = pass' := by
  have hd := resolveLoops_mono (Nat.le_max_left depth other) h
  have ho := resolveLoops_mono (Nat.le_max_right depth other) h'
  exact Option.some.inj (hd.symm.trans ho)

theorem resolveLoop_deeper {context : Context} {depth deeper : Nat} (le : depth ≤ deeper)
    {run : Run} {element : Element} {body : Forest} {pass : Pass}
    (h : resolveLoop context (resolveLoops context depth) run element body = some pass) :
    resolveLoop context (resolveLoops context deeper) run element body = some pass :=
  resolveLoop_mono (fun hi => resolveLoops_mono le hi) h

/-- The pass ends, for some bound on the nesting. -/
def Ends (context : Context) (pass : Pass) : Prop :=
  ∃ depth after, resolveLoops context depth pass.1 pass.2 = some after

theorem iterate_ends {context : Context} {loop : Loop} {body : List Piece}
    {entries : List (Value × Value)} {run : Run}
    (h : ∀ pass, loop.Begins context body entries run pass → Ends context pass) :
    ∃ depth after,
      iterate context (resolveLoops context depth) loop body entries run = some after := by
  induction entries generalizing run with
  | nil => exact ⟨0, _, rfl⟩
  | cons entry entries ih =>
    obtain ⟨depth, first, hf⟩ := h _ .first
    obtain ⟨depth', rest, hr⟩ := ih fun pass hp => h pass (.later hf hp)
    have hfirst := resolveLoops_mono (Nat.le_max_left depth depth') hf
    have hrest := iterate_mono (resolveLoops_mono (Nat.le_max_right depth depth')) hr
    exact ⟨max depth depth', _, iterate_cons_eq_some_iff.mpr ⟨first, rest, hfirst, hrest, rfl⟩⟩

theorem ends_of_begins {context : Context} {forest : Forest} {run : Run}
    (h : ∀ pass, Begins context forest run pass → Ends context pass) :
    Ends context (run, forest) := by
  suffices hs : ∃ depth after,
      replaceLoops (resolveLoop context (resolveLoops context depth)) forest run = some after by
    obtain ⟨depth, after, hs⟩ := hs
    exact ⟨depth + 1, after, hs⟩
  induction forest generalizing run with
  | nil => exact ⟨0, _, rfl⟩
  | node content children next ihc ihn =>
    cases hl : content.loop? with
    | some element =>
      have output : ∃ depth inside,
          resolveLoop context (resolveLoops context depth) run element children = some inside := by
        cases hread : Loop.read run.model element with
        | error notice => exact ⟨0, (run.note notice, .nil), by simp [resolveLoop, hread]⟩
        | ok loop =>
          simp only [resolveLoop_of_read hread]
          exact iterate_ends fun pass hp => h pass (.iteration hl hread hp)
      obtain ⟨depth, inside, hi⟩ := output
      obtain ⟨depth', rest, hr⟩ := ihn fun pass hp => h pass (.afterLoop hl hi hp)
      have hinside := resolveLoop_deeper (Nat.le_max_left depth depth') hi
      have hrest := replaceLoops_mono (resolveLoop_deeper (Nat.le_max_right depth depth')) hr
      exact ⟨max depth depth', _,
        (replaceLoops_loop_eq_some_iff hl).mpr ⟨inside, rest, hinside, hrest, rfl⟩⟩
    | none =>
      obtain ⟨depth, inside, hi⟩ := ihc fun pass hp => h pass (.inside hl hp)
      have hd : resolveLoops context (depth + 1) run children = some inside := hi
      obtain ⟨depth', rest, hr⟩ := ihn fun pass hp => h pass (.after hl hd hp)
      have hinside := replaceLoops_mono (resolveLoop_deeper (Nat.le_max_left depth depth')) hi
      have hrest := replaceLoops_mono (resolveLoop_deeper (Nat.le_max_right depth depth')) hr
      exact ⟨max depth depth', _,
        (replaceLoops_other_eq_some_iff hl).mpr ⟨inside, rest, hinside, hrest, rfl⟩⟩

/-- The iterations of a loop that ended have passes that ended within the same bound. -/
theorem Loop.Begins.ends {context : Context} {loop : Loop} {body : List Piece}
    {entries : List (Value × Value)} {run : Run} {pass after : Pass} {depth : Nat}
    (begins : loop.Begins context body entries run pass)
    (h : iterate context (resolveLoops context depth) loop body entries run = some after) :
    ∃ output, resolveLoops context depth pass.1 pass.2 = some output := by
  induction begins generalizing after with
  | first =>
    obtain ⟨first, _, hf, _⟩ := iterate_cons_eq_some_iff.mp h
    exact ⟨first, hf⟩
  | later hd _ ih =>
    obtain ⟨first, rest, hf, hr, _⟩ := iterate_cons_eq_some_iff.mp h
    rw [resolveLoops_unique hf hd] at hr
    exact ih hr

theorem Begins.ends {context : Context} {forest : Forest} {run : Run} {pass after : Pass}
    {depth : Nat} (begins : Begins context forest run pass)
    (h : replaceLoops (resolveLoop context (resolveLoops context depth)) forest run = some after) :
    ∃ output, resolveLoops context depth pass.1 pass.2 = some output := by
  induction begins generalizing after with
  | iteration hl hread hp =>
    obtain ⟨inside, _, hi, _⟩ := (replaceLoops_loop_eq_some_iff hl).mp h
    rw [resolveLoop_of_read hread] at hi
    exact hp.ends hi
  | @afterLoop _ _ _ _ _ _ other _ _ hl hd _ ih =>
    obtain ⟨inside, rest, hi, hr, _⟩ := (replaceLoops_loop_eq_some_iff hl).mp h
    have hmax := resolveLoop_deeper (Nat.le_max_left depth other) hi
    rw [resolveLoop_deeper (Nat.le_max_right depth other) hd, Option.some.injEq] at hmax
    rw [← hmax] at hr
    exact ih hr
  | inside hl _ ih =>
    obtain ⟨inside, _, hi, _⟩ := (replaceLoops_other_eq_some_iff hl).mp h
    exact ih hi
  | after hl hd _ ih =>
    obtain ⟨inside, rest, hi, hr, _⟩ := (replaceLoops_other_eq_some_iff hl).mp h
    have hi' : resolveLoops context (depth + 1) _ _ = some inside := hi
    rw [resolveLoops_unique hi' hd] at hr
    exact ih hr

theorem not_begins_of_resolveLoops_zero {context : Context} {forest : Forest} {run : Run}
    {pass after : Pass} (h : resolveLoops context 0 run forest = some after) :
    ¬ Begins context forest run pass := by
  intro begins
  induction begins generalizing after with
  | iteration hl => simp [resolveLoops, replaceLoops_loop hl] at h
  | afterLoop hl => simp [resolveLoops, replaceLoops_loop hl] at h
  | inside hl _ ih =>
    obtain ⟨inside, _, hi, _⟩ := (replaceLoops_other_eq_some_iff hl).mp h
    exact ih hi
  | after hl hd _ ih =>
    obtain ⟨inside, rest, hi, hr, _⟩ := (replaceLoops_other_eq_some_iff hl).mp h
    have hi' : resolveLoops context 0 _ _ = some inside := hi
    rw [resolveLoops_unique hi' hd] at hr
    exact ih hr

/-- A pass ends exactly if no iterations are inside each other without end from it on. -/
theorem ends_iff_acc {context : Context} {pass : Pass} :
    Ends context pass ↔
      Acc (fun inner outer : Pass => Begins context outer.2 outer.1 inner) pass := by
  constructor
  · rintro ⟨depth, after, h⟩
    induction depth generalizing pass after with
    | zero => exact .intro _ fun _ hb => absurd hb (not_begins_of_resolveLoops_zero h)
    | succ depth ih =>
      refine .intro _ fun inner hb => ?_
      obtain ⟨output, ho⟩ := hb.ends h
      exact ih output ho
  · intro acc
    induction acc with
    | intro pass _ ih => exact ends_of_begins ih

theorem ends_iff_not_nestsForever {context : Context} {pass : Pass} :
    Ends context pass ↔ ¬ NestsForever context pass := by
  rw [ends_iff_acc, acc_iff_isEmpty_descending_chain, isEmpty_subtype, NestsForever, not_exists]

theorem resolveDocument_of_ends {context : Context} {depth : Nat} {model : Model}
    {compiled : Text} {after : Pass}
    (h : resolveLoops context depth (documentPass context model compiled).1
      (documentPass context model compiled).2 = some after) :
    resolveDocument context depth model compiled = some (after.1, removeLinks after.2) := by
  rw [resolveDocument_eq, h, Option.bind_some]

theorem resolveDocument_isSome_iff {context : Context} {model : Model} {compiled : Text} :
    (∃ depth, (resolveDocument context depth model compiled).isSome) ↔
      Ends context (documentPass context model compiled) := by
  simp only [resolveDocument_eq, Ends, Option.isSome_bind, Option.isSome_some, Option.any_true,
    Option.isSome_iff_exists]

theorem render?_isSome (context : Context) (depth : Nat) (model : Model) (compiled : Text) :
    (render? context depth model compiled).isSome =
      (resolveDocument context depth model compiled).isSome := by
  simp [render?, Option.isSome_bind]

/-- A render reaches its result, the same for every large enough bound on the nesting of loops,
exactly if no iterations are inside each other without end. -/
theorem render?_reaches_iff_not_nestsForever (context : Context) (model : Model)
    (compiled : Text) :
    (∃ rendering bound, ∀ depth, bound ≤ depth →
        render? context depth model compiled = some rendering) ↔
      ¬ NestsForever context (documentPass context model compiled) := by
  rw [← ends_iff_not_nestsForever]
  constructor
  · rintro ⟨rendering, bound, h⟩
    apply resolveDocument_isSome_iff.mp
    refine ⟨bound, ?_⟩
    rw [← render?_isSome, h bound (Nat.le_refl _)]
    rfl
  · rintro ⟨bound, after, h⟩
    have resolved : resolveDocument context bound model compiled =
        some (after.1, removeLinks after.2) := resolveDocument_of_ends h
    obtain ⟨rendering, hr⟩ : ∃ rendering,
        render? context bound model compiled = some rendering := by
      rw [← Option.isSome_iff_exists, render?_isSome, resolved]
      rfl
    refine ⟨rendering, bound, fun depth le => ?_⟩
    have deeper : resolveDocument context depth model compiled =
        some (after.1, removeLinks after.2) := resolveDocument_of_ends (resolveLoops_mono le h)
    rw [← hr, render?, render?, deeper, resolved]

/-- What the body of the loop below puts out. -/
def selfLoopBody : Text :=
  "\x7bx\x7d".toList

/-- A loop over the values of `a`, which puts each of them into its body. -/
def selfLoop : Text :=
  "<foreach val=\"x\" in=\"a\">\x7bx\x7d</foreach>".toList

/-- The one value of `a` writes the loop again. -/
def selfLoopModel : Model :=
  .ofValue (.record [("a".toList, .list [.text selfLoop])])

/-- The loop as an element. -/
def selfLoopElement : Element :=
  ⟨"foreach".toList, [⟨"val".toList, .quoted .double "x".toList⟩,
    ⟨"in".toList, .quoted .double "a".toList⟩], .normal⟩

/-- The forest that the loop writes. -/
def selfLoopForest : Forest :=
  .node (.element selfLoopElement) (.node (.text selfLoopBody) .nil .nil) .nil

theorem readForest_selfLoop : readForest selfLoop = (selfLoopForest, []) := by
  decide +kernel

theorem read_selfLoop {model : Model}
    (h : Table.find? "a".toList model.fields = some (.list [.text selfLoop])) :
    Loop.read model selfLoopElement =
      .ok ⟨"x".toList, none, [(.number (.integer 0), .text selfLoop)]⟩ := by
  have hv : selfLoopElement.setting? "val".toList = some "x".toList := by decide
  have hi : selfLoopElement.setting? "in".toList = some "a".toList := by decide
  have hk : selfLoopElement.setting? "key".toList = none := by decide
  have hx : lowerText "x".toList = "x".toList := by decide
  have ha : lowerText "a".toList = "a".toList := by decide
  have hp : Path.read? "a".toList = some ⟨"a".toList, []⟩ := by decide +kernel
  have hg : model.get? "a".toList = some (.list [.text selfLoop]) := by
    simp only [Model.get?, hp, Option.bind_some, Model.follow?, fieldNamed?, ha, h]
    rfl
  simp only [Loop.read, hv, hi, hk, hx, ha, hg, Value.entries?]
  rfl

theorem resolveTags_selfLoop (context : Context) (run : Run) :
    (resolveTags context run selfLoopForest).1.model = run.model ∧
      (resolveTags context run selfLoopForest).2 = selfLoopForest := by
  have hf : firstInclude? selfLoopForest = none := by decide
  have hc : resolveChains run.model selfLoopForest = (selfLoopForest, []) := by
    simp [selfLoopForest, resolveChains,
      show (Content.element selfLoopElement).head? = none by decide,
      show (Content.element selfLoopElement).isElement (·.isLoop) = true by decide]
  unfold resolveTags
  cases run.budget with
  | spent => simp [hc, Run.noteAll]
  | remaining steps => simp [expandIncludes, hf, hc, Run.noteAll]

theorem resolveLoops_selfLoop (context : Context) (depth : Nat) {run : Run}
    (h : Table.find? "a".toList run.model.fields = some (.list [.text selfLoop])) :
    resolveLoops context depth run selfLoopForest = none := by
  have hl : (Content.element selfLoopElement).loop? = some selfLoopElement := by decide
  induction depth generalizing run with
  | zero => simp [resolveLoops, selfLoopForest, replaceLoops_loop hl]
  | succ depth ih =>
    let loop : Loop := ⟨"x".toList, none, [(.number (.integer 0), .text selfLoop)]⟩
    let model : Model := run.model.set "x".toList (.text selfLoop)
    have hx : lowerText "x".toList = "x".toList := by decide
    have hp : Path.read? "x".toList = some ⟨"x".toList, []⟩ := by decide +kernel
    have hg : model.get? "x".toList = some (.text selfLoop) := by
      simp only [Model.get?, hp, Option.bind_some, Model.follow?, fieldNamed?, hx, model,
        Model.set, Table.find?_insert_self]
      rfl
    have ha : Table.find? "a".toList model.fields = some (.list [.text selfLoop]) := by
      simp only [model, Model.set, hx]
      rw [Table.find?_insert_ne (by decide), h]
    have hb : bodyPieces (.node (.text selfLoopBody) .nil .nil) = [.markup selfLoopBody] := by
      decide
    have hs : fragments selfLoopBody = [.placeholder "x".toList] := by decide +kernel
    have text : iterationText model [.markup selfLoopBody] = selfLoop := by
      simp only [iterationText, List.flatMap_cons, List.flatMap_nil, substitute, hs,
        Fragment.fill, hg, Value.display, List.append_nil]
    have pass : iterationPass context loop [.markup selfLoopBody]
        (.number (.integer 0), .text selfLoop) run =
          resolveTags context { run with model } selfLoopForest := by
      change resolveTags context (Run.read { run with model } (iterationText model _)).1
        (Run.read { run with model } (iterationText model _)).2 = _
      rw [text, Run.read, readForest_selfLoop]
      rfl
    obtain ⟨hm, hf⟩ := resolveTags_selfLoop context { run with model }
    have inner : resolveLoops context depth
        (resolveTags context { run with model } selfLoopForest).1 selfLoopForest = none := by
      apply ih
      rw [hm]
      exact ha
    change replaceLoops (resolveLoop context (resolveLoops context depth)) selfLoopForest run = none
    rw [selfLoopForest, replaceLoops_loop hl, resolveLoop_of_read (read_selfLoop h), hb,
      iterate_cons, pass, hf, inner]
    rfl

/-- Such a render has no result, whatever the bound: a value may bring in the loop that it is an
entry of. -/
theorem renderText?_selfLoop_unfinished :
    ¬ ∃ depth,
      ((Engine.ofTemplates {} []).renderText? {} depth [] selfLoopModel selfLoop).isSome := by
  rintro ⟨depth, h⟩
  let context := (Engine.ofTemplates {} []).context {} []
  have hc : compile selfLoop = selfLoop := by decide +kernel
  have hm : Table.find? "a".toList selfLoopModel.fields = some (.list [.text selfLoop]) := by rfl
  have pass : documentPass context selfLoopModel selfLoop =
      resolveTags context (.start context selfLoopModel) selfLoopForest := by
    rw [documentPass, Run.read, readForest_selfLoop]
    rfl
  obtain ⟨hmodel, hf⟩ := resolveTags_selfLoop context (.start context selfLoopModel)
  have resolved : resolveDocument context depth selfLoopModel selfLoop = none := by
    rw [resolveDocument_eq, pass, hf, resolveLoops_selfLoop]
    · rfl
    · rw [hmodel]
      exact hm
  have rendered : render? context depth selfLoopModel selfLoop = none := by
    simp [render?, resolved]
  rw [Engine.renderText?, Engine.renderCompiled?, hc, rendered] at h
  cases h

end MarkupTemplate
