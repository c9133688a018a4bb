import MarkupTemplate.Proofs.Render.LoopCourses
import MarkupTemplate.Proofs.Render.SplicedChains

namespace MarkupTemplate

open Forest

/-- The second run is where the first one is, with at least its budget. -/
structure Ahead (run run' : Run) : Prop where
  model : run'.model = run.model
  budget : ∃ steps steps', run.budget = .remaining steps ∧ run'.budget = .remaining steps' ∧
    steps ≤ steps'

/-- The pass over loops that a text begins, once it is read and its tags are resolved. -/
def readPass (context : Context) (run : Run) (text : Text) : Pass :=
  let read := run.read text
  resolveTags context read.1 read.2

theorem readPass_model (context : Context) (run : Run) (text : Text) :
    (readPass context run text).1.model = run.model :=
  resolveTags_model context _ _

/-- Iterations that read the same text, or texts that are related in this way. Then no placeholder
that is filled with a blank text stands before a link once the tags are resolved, and those that are
left outside of loops are filled with the last values of their names. -/
def Reading.Unfolds {context : Context} (part : Part context) (last : Model) (may : Text → Prop)
    (reading reading' : Reading) : Prop :=
  reading.text ≠ reading'.text → ∃ fills : Text → Text → Prop,
    MarkupTemplate.Unfolds part reading.pass.1.model fills True true
        (readForest reading.text).1 (readForest reading'.text).1 ∧
      LinksApart fills reading.pass.2 ∧
      ∀ path shown, placeholderText path <:+: reading.pass.2.outsideLoops → fills path shown →
        Lasting last may path shown

section Includes

variable {context : Context} {part : Part context} {now : Model} {fills : Text → Text → Prop}
variable {looped : Prop}

theorem Reply.Unfolds.afterReply {reply reply' : Reply} {forest forest' a a' : Forest}
    (h : Reply.Unfolds part now fills looped reply reply') (hf : Split forest a)
    (hf' : Split forest' a')
    (hs : ∀ c c', Spliced part now fills looped true c c' →
      Spliced part now fills looped true (a.replaceFirst c) (a'.replaceFirst c')) :
    MarkupTemplate.Unfolds part now fills looped true (forest.afterReply reply)
      (forest'.afterReply reply') := by
  cases h with
  | fragment hu =>
    obtain ⟨c, c', hc, hc', hcs⟩ := hu
    exact ⟨_, _, hf.replaceFirst hc, hf'.replaceFirst hc', hs c c' hcs⟩
  | document hu => exact hu

/-- The first forest asks for nothing and neither does the second, or the reply that the first one
gets is the part, or both get replies that are related. -/
theorem Unfolds.step {forest forest' : Forest}
    (h : Unfolds part now fills looped true forest forest') :
    (forest.request? = none ∧ forest'.request? = none ∧
        Unfolds part now fills looped false forest forest') ∨
      ∃ e children, forest.request? = some (e, children) ∧
        (Unfolds part now fills looped true (forest.afterReply (context.reply e children))
            forest' ∨
          ∃ e' children', forest'.request? = some (e', children') ∧
            Unfolds part now fills looped true (forest.afterReply (context.reply e children))
              (forest'.afterReply (context.reply e' children'))) := by
  obtain ⟨a, a', hf, hf', hs⟩ := h
  cases hr : forest.request? with
  | none =>
    obtain ⟨hr', hs'⟩ := hs.of_request?_eq_none (hf.alike.request?_eq_none hr)
    exact .inl ⟨rfl, hf'.alike.symm.request?_eq_none hr', a, a', hf, hf', hs'⟩
  | some found =>
    obtain ⟨e, children⟩ := found
    obtain ⟨inside, hra, hc⟩ := hf.alike.request? hr
    refine .inr ⟨e, children, rfl, ?_⟩
    rw [hc.reply]
    rcases hs.of_request? rfl hra with ⟨rfl, he, content, hcontent, hs'⟩ |
      ⟨e', inside', hra', hu, hs'⟩
    · rw [he.reply]
      exact .inl ⟨_, a', hf.replaceFirst hcontent, hf', hs'⟩
    · obtain ⟨children', hr', hc'⟩ := hf'.alike.symm.request? hra'
      refine .inr ⟨e', children', hr', ?_⟩
      rw [← hc'.reply]
      exact hu.afterReply hf hf' hs'

/-- The second run never takes more steps than the first one. -/
theorem Unfolds.expandIncludes {steps steps' : Nat} {run run' : Run} {forest forest' : Forest}
    (h : Unfolds part now fills looped true forest forest') (hsteps : steps ≤ steps')
    (hm : run'.model = run.model)
    (left : (expandIncludes context steps run forest).1.budget ≠ .spent) :
    Ahead (expandIncludes context steps run forest).1
        (expandIncludes context steps' run' forest').1 ∧
      Unfolds part now fills looped false (expandIncludes context steps run forest).2
        (expandIncludes context steps' run' forest').2 := by
  induction steps generalizing steps' run run' forest forest' with
  | zero =>
    rcases h.step with ⟨hr, hr', hs⟩ | ⟨e, children, hr, _⟩
    · rw [expandIncludes_of_none hr, expandIncludes_of_none hr']
      exact ⟨⟨hm, 0, steps', rfl, rfl, hsteps⟩, hs⟩
    · exact absurd (expandIncludes_spent hr run) left
  | succ steps ih =>
    rcases h.step with ⟨hr, hr', hs⟩ | ⟨e, children, hr, hs⟩
    · rw [expandIncludes_of_none hr, expandIncludes_of_none hr']
      exact ⟨⟨hm, steps + 1, steps', rfl, rfl, hsteps⟩, hs⟩
    · obtain ⟨next, hn, he⟩ := expandIncludes_step context hr steps run
      rw [he] at left ⊢
      rcases hs with hs | ⟨e', children', hr', hs⟩
      · exact ih hs (Nat.le_of_succ_le hsteps) (hm.trans hn.symm) left
      · cases steps' with
        | zero => cases hsteps
        | succ steps' =>
          obtain ⟨next', hn', he'⟩ := expandIncludes_step context hr' steps' run'
          rw [he']
          exact ih hs (Nat.le_of_succ_le_succ hsteps) (hn'.trans (hm.trans hn.symm)) left

theorem resolveTags_of_remaining {run : Run} {steps : Nat} (h : run.budget = .remaining steps)
    (context : Context) (forest : Forest) :
    resolveTags context run forest =
      let pass := expandIncludes context steps run forest
      (pass.1.noteAll (resolveChains pass.1.model pass.2).2,
        (resolveChains pass.1.model pass.2).1) := by
  simp only [resolveTags, h]

/-- Where the first run resolves its tags with budget left, the second one follows. -/
theorem Unfolds.resolveTags {run run' : Run} {forest forest' : Forest}
    (h : Unfolds part run.model fills looped true forest forest') (ahead : Ahead run run')
    (left : (resolveTags context run forest).1.budget ≠ .spent)
    (apart : LinksApart fills (resolveTags context run forest).2) :
    Ahead (resolveTags context run forest).1 (resolveTags context run' forest').1 ∧
      Unfolds part run.model fills looped false (resolveTags context run forest).2
        (resolveTags context run' forest').2 := by
  obtain ⟨steps, steps', hb, hb', hle⟩ := ahead.budget
  rw [resolveTags_of_remaining hb] at left apart ⊢
  rw [resolveTags_of_remaining hb']
  obtain ⟨hpass, hforest⟩ := h.expandIncludes hle ahead.model left
  have hm := expandIncludes_model context steps run forest
  refine ⟨⟨hpass.model, hpass.budget⟩, ?_⟩
  simp only [hpass.model, hm] at apart ⊢
  exact hforest.resolveChains apart

/-- Texts that are related in this way begin passes that are. They are the same unless a loop is
left open. -/
theorem readPass_unfolds {last : Model} {may : Text → Prop} {run run' : Run} {text text' : Text}
    (ahead : Ahead run run') (left : (readPass context run text).1.budget ≠ .spent)
    (h : looped → Reading.Unfolds part last may ⟨text, readPass context run text⟩
      ⟨text', readPass context run' text'⟩)
    (hd : looped ∨ text = text') :
    Ahead (readPass context run text).1 (readPass context run' text').1 ∧
      Unfolds part run.model (Lasting last may) looped false (readPass context run text).2
        (readPass context run' text').2 := by
  have start : Ahead (run.read text).1 (run'.read text').1 := ⟨ahead.model, ahead.budget⟩
  by_cases same : text = text'
  · have unfolds : Unfolds part (run.read text).1.model (fun _ _ => False) looped true
        (run.read text).2 (run'.read text').2 := by
      rw [same]
      exact .of_alike (alike_readForest text')
    obtain ⟨hpass, hforest⟩ :=
      unfolds.resolveTags start left (linksApart_of_none (fun _ _ => id) _)
    exact ⟨hpass, hforest.restrict id fun _ _ _ => False.elim⟩
  · have openLoop : looped := hd.resolve_right same
    obtain ⟨fills, unfolds, apart, lasting⟩ := h openLoop same
    rw [readPass_model] at unfolds
    have read : Unfolds part (run.read text).1.model fills True true (run.read text).2
        (run'.read text').2 := unfolds
    obtain ⟨hpass, hforest⟩ := read.resolveTags start left apart
    exact ⟨hpass, hforest.restrict (fun _ => openLoop) lasting⟩

end Includes

end MarkupTemplate
