import MarkupTemplate.Proofs.Render.SideBySide

namespace MarkupTemplate

namespace Notice

theorem tells_debug (notice : Notice) : Verbosity.debug.tells notice.level = true := by
  cases notice <;> rfl

theorem tells_eq (verbosity : Verbosity) (notice : Notice) :
    verbosity.tells notice.level = decide (notice.level.level ≤ verbosity.level) := by
  have named : notice.level ≠ .none := by cases notice <;> nofun
  simp [Verbosity.tells, named]

theorem told_debug (notices : List Notice) : told .debug notices = notices :=
  List.filter_eq_self.mpr fun notice _ => tells_debug notice

theorem told_append (verbosity : Verbosity) (a b : List Notice) :
    told verbosity (a ++ b) = told verbosity a ++ told verbosity b :=
  List.filter_append ..

theorem told_reverse (verbosity : Verbosity) (notices : List Notice) :
    told verbosity notices.reverse = (told verbosity notices).reverse :=
  List.filter_reverse

end Notice

/-- Two runs that differ only in how much they tell of the same notices. -/
structure SameButTold (first second : Verbosity) (run run' : Run) : Prop where
  model : run'.model = run.model
  budget : run'.budget = run.budget
  expanded : run'.expanded = run.expanded
  verbosity : run.verbosity = first
  verbosity' : run'.verbosity = second
  notices : ∃ all, run.notices = Notice.told first all ∧ run'.notices = Notice.told second all

namespace SameButTold

variable {first second : Verbosity} {run run' : Run}

theorem note (h : SameButTold first second run run') (notice : Notice) :
    SameButTold first second (run.note notice) (run'.note notice) where
  model := h.model
  budget := h.budget
  expanded := h.expanded
  verbosity := h.verbosity
  verbosity' := h.verbosity'
  notices := by
    obtain ⟨all, ha, ha'⟩ := h.notices
    refine ⟨[notice] ++ all, ?_, ?_⟩
    · rw [Notice.told_append, ← ha, Run.note, h.verbosity]
    · rw [Notice.told_append, ← ha', Run.note, h.verbosity']

theorem start (context : Context) (model : Model) (first second : Verbosity) :
    SameButTold first second (.start { context with verbosity := first } model)
      (.start { context with verbosity := second } model) :=
  ⟨rfl, rfl, rfl, rfl, rfl, [], rfl, rfl⟩

/-- What a render does to its run does not depend on how much it tells. -/
theorem alongside (context : Context) (first second : Verbosity) :
    Alongside { context with verbosity := first } { context with verbosity := second } True
      (SameButTold first second) where
  template := rfl
  model h := h.model
  bind h _ := { h with model := rfl }
  note h _ _ := h.note _
  spent h := by rw [h.budget]
  step {run run' steps} h hb :=
    ⟨steps, h.budget.trans hb, fun asked =>
      { h with
        budget := rfl
        expanded := congrArg (asked :: ·) h.expanded }⟩
  giveUp h hb _ := ⟨h.budget.trans hb, { h.note _ with budget := rfl }⟩

end SameButTold

/-- A render that tells more or less comes to the same text by the same expansions, and tells more
or fewer of the same notices. -/
theorem render?_told {context : Context} {first second : Verbosity} {depth : Nat} {model : Model}
    {compiled : Text} {rendering : Rendering}
    (h : render? { context with verbosity := first } depth model compiled = some rendering) :
    ∃ all other, render? { context with verbosity := second } depth model compiled = some other ∧
      other.text = rendering.text ∧ other.expanded = rendering.expanded ∧
      rendering.notices = Notice.told first all ∧ other.notices = Notice.told second all := by
  rw [render?_eq] at h
  obtain ⟨⟨run, forest⟩, hd, rfl⟩ := Option.map_eq_some_iff.mp h
  have sim := SameButTold.alongside context first second
  obtain ⟨run', hd', related⟩ :=
    sim.resolveDocument (.start context model first second) _ hd fun hn => (hn trivial).elim
  obtain ⟨all, ha, ha'⟩ := (sim.missing related forest).notices
  refine ⟨all.reverse, rendered (run', forest), ?_, ?_, ?_, ?_, ?_⟩
  · rw [render?_eq, hd', Option.map_some]
  · rw [rendered, rendered, related.model]
  · rw [rendered, rendered, related.expanded]
  · rw [Notice.told_reverse, ← ha]
    rfl
  · rw [Notice.told_reverse, ← ha']
    rfl

/-- The outcome of a render with those notices only whose level is at most the verbosity. -/
def Rendering.upTo (verbosity : Verbosity) (rendering : Rendering) : Rendering :=
  { rendering with
    notices := rendering.notices.filter fun notice => notice.level.level ≤ verbosity.level }

/-- At any verbosity a render returns exactly if it does when all is told, its text and expansions
are the same, and its notices are those that belong to the verbosity; there are none if nothing is
to be told. -/
theorem render?_verbosity (context : Context) (depth : Nat) (model : Model) (compiled : Text)
    (verbosity : Verbosity) :
    render? { context with verbosity } depth model compiled =
        (render? { context with verbosity := .debug } depth model compiled).map
          (Rendering.upTo verbosity) ∧
      ∀ rendering : Rendering, (rendering.upTo .none).notices = [] := by
  constructor
  · cases h : render? { context with verbosity := .debug } depth model compiled with
    | none =>
      cases hv : render? { context with verbosity } depth model compiled with
      | none => rfl
      | some rendering =>
        obtain ⟨_, other, ho, _⟩ := @render?_told context verbosity .debug _ _ _ _ hv
        cases h.symm.trans ho
    | some rendering =>
      obtain ⟨all, other, ho, htext, hexpanded, hall, hnotices⟩ :=
        @render?_told context .debug verbosity _ _ _ _ h
      rw [Notice.told_debug] at hall
      have told : Notice.told verbosity all =
          rendering.notices.filter fun notice => notice.level.level ≤ verbosity.level := by
        rw [hall]
        exact List.filter_congr fun notice _ => Notice.tells_eq verbosity notice
      rw [ho, Option.map_some]
      obtain ⟨text, notices, expanded⟩ := other
      exact congrArg some (Rendering.mk.injEq .. ▸ ⟨htext, hnotices.trans told, hexpanded⟩)
  · intro rendering
    refine List.filter_eq_nil_iff.mpr fun notice _ => ?_
    cases notice <;> simp [Notice.level, Verbosity.level]

end MarkupTemplate
