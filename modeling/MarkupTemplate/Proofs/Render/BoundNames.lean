import MarkupTemplate.Proofs.Render.LoopVisits

namespace MarkupTemplate

/-- The names that a loop binds, as the model has them. -/
def Loop.names (loop : Loop) : List Text :=
  lowerText loop.valueName :: (loop.keyName.map lowerText).toList

/-- If both names are the same, the key is bound to it. -/
theorem Loop.find?_bind (loop : Loop) (model : Model) (entry : Value × Value) (name : Text) :
    (loop.bind model entry).fields.find? name =
      if loop.keyName.map lowerText = some name then some entry.1
      else if lowerText loop.valueName = name then some entry.2
      else model.fields.find? name := by
  have value : (model.set loop.valueName entry.2).fields.find? name =
      if lowerText loop.valueName = name then some entry.2 else model.fields.find? name := by
    split
    next hv => rw [← hv, Model.set, Table.find?_insert_self]
    next hv => rw [Model.set, Table.find?_insert_ne (Ne.symm hv)]
  unfold Loop.bind
  cases loop.keyName with
  | none => exact value
  | some key =>
    simp only [Option.map_some, Option.some.injEq]
    split
    next hk => rw [← hk, Model.set, Table.find?_insert_self]
    next hk => rw [Model.set, Table.find?_insert_ne (Ne.symm hk), value]

theorem Loop.find?_bind_other {loop : Loop} {name : Text} (h : name ∉ loop.names) (model : Model)
    (entry : Value × Value) :
    (loop.bind model entry).fields.find? name = model.fields.find? name := by
  obtain ⟨hv, hk⟩ := not_or.mp (mt List.mem_cons.mpr h)
  rw [loop.find?_bind, if_neg fun he => hk (by simp [he]), if_neg (Ne.symm hv)]

/-- A pass over loops, or one that an iteration inside it starts, comes to the loop, and there is
something to iterate over. -/
inductive Iterates (context : Context) : Pass → Loop → Prop
  | comes {pass : Pass} {before : Text} {element : Element} {body : Forest} {start : Run}
      {loop : Loop} : ComesTo context False pass.2 pass.1 before element body start →
      Loop.read start.model element = .ok loop → loop.entries ≠ [] → Iterates context pass loop
  | inside {pass inner : Pass} {loop : Loop} : Begins context pass.2 pass.1 inner →
      Iterates context inner loop → Iterates context pass loop

namespace Iterates

variable {context : Context} {content : Content} {children next : Forest} {run : Run} {loop : Loop}

theorem afterLoop {inside : Pass} {depth : Nat} {element : Element}
    (hl : content.loop? = some element)
    (hd : loopOutput context depth run element children = some inside)
    (h : Iterates context (inside.1, next) loop) :
    Iterates context (run, .node content children next) loop := by
  cases depth with
  | zero => cases hd
  | succ depth =>
    cases h with
    | comes hc hr he => exact .comes (.afterLoop hl hd hc) hr he
    | inside hb h => exact .inside (.afterLoop hl hd hb) h

theorem into (hl : content.loop? = none) (h : Iterates context (run, children) loop) :
    Iterates context (run, .node content children next) loop := by
  cases h with
  | comes hc hr he => exact .comes (.inside hl False.elim hc) hr he
  | inside hb h => exact .inside (.inside hl hb) h

theorem after {inside : Pass} {depth : Nat} (hl : content.loop? = none)
    (hd : replaceLoops (loopOutput context depth) children run = some inside)
    (h : Iterates context (inside.1, next) loop) :
    Iterates context (run, .node content children next) loop := by
  rw [← resolveLoops_eq] at hd
  cases h with
  | comes hc hr he => exact .comes (.after hl hd hc) hr he
  | inside hb h => exact .inside (.after hl hd hb) h

end Iterates

section Frame

variable {context : Context} {name : Text}

/-- A pass that keeps the name. -/
def KeepsName (name : Text) (run : Run) (pass : Pass) : Prop :=
  pass.1.model.fields.find? name = run.model.fields.find? name

theorem iterate_keepsName {depth : Nat}
    (inner : ∀ {run : Run} {forest : Forest} {pass : Pass},
      resolveLoops context depth run forest = some pass →
      (∀ loop, Iterates context (run, forest) loop → name ∉ loop.names) → KeepsName name run pass)
    {loop : Loop} {body : List Piece} {entries : List (Value × Value)} {run : Run} {pass : Pass}
    (h : iterate context (resolveLoops context depth) loop body entries run = some pass)
    (outside : entries ≠ [] → name ∉ loop.names)
    (within : ∀ begun other, loop.Begins context body entries run begun →
      Iterates context begun other → name ∉ other.names) : KeepsName name run pass := by
  induction entries generalizing run pass with
  | nil =>
    cases Option.some.inj h
    rfl
  | cons entry entries ih =>
    obtain ⟨first, rest, hf, hr, rfl⟩ := iterate_cons_eq_some_iff.mp h
    have other := outside (List.cons_ne_nil _ _)
    have hfirst := inner hf (within _ · .first)
    have hrest := ih hr (fun _ => other) fun begun loop hb => within begun loop (.later hf hb)
    calc rest.1.model.fields.find? name
      _ = first.1.model.fields.find? name := hrest
      _ = (iterationPass context loop body entry run).1.model.fields.find? name := hfirst
      _ = run.model.fields.find? name := by rw [iterationPass_model, loop.find?_bind_other other]

theorem resolveLoops_keepsName {depth : Nat} {run : Run} {forest : Forest} {pass : Pass}
    (h : resolveLoops context depth run forest = some pass)
    (outside : ∀ loop, Iterates context (run, forest) loop → name ∉ loop.names) :
    KeepsName name run pass := by
  induction depth using Nat.strongRecOn generalizing run forest pass with
  | ind depth inner =>
    rw [resolveLoops_eq] at h
    induction forest generalizing run pass with
    | nil =>
      cases Option.some.inj h
      rfl
    | node content children next ihc ihn =>
      cases hl : content.loop? with
      | some element =>
        obtain ⟨inside, rest, hi, hr, rfl⟩ := (replaceLoops_loop_eq_some_iff hl).mp h
        have hinside : KeepsName name run inside := by
          cases depth with
          | zero => cases hi
          | succ depth =>
            change resolveLoop context (resolveLoops context depth) run element children = _ at hi
            cases hread : Loop.read run.model element with
            | error notice =>
              rw [resolveLoop_of_error hread] at hi
              cases Option.some.inj hi
              rfl
            | ok loop =>
              rw [resolveLoop_of_read hread] at hi
              refine iterate_keepsName (inner depth (Nat.lt_succ_self depth)) hi (fun hne => ?_)
                fun begun other hb ho => ?_
              · exact outside loop (.comes (.here hl) hread hne)
              · exact outside other (.inside (.iteration hl hread hb) ho)
        exact (ihn hr fun loop hloop => outside loop (.afterLoop hl hi hloop)).trans hinside
      | none =>
        obtain ⟨inside, rest, hi, hr, rfl⟩ := (replaceLoops_other_eq_some_iff hl).mp h
        have hinside := ihc hi fun loop hloop => outside loop (.into hl hloop)
        exact (ihn hr fun loop hloop => outside loop (.after hl hi hloop)).trans hinside

end Frame

end MarkupTemplate
