import MarkupTemplate.Proofs.Render.LoopCourses

namespace MarkupTemplate

/-- A pass over the loops of a forest comes to a loop element with its body, and all loops before it
have ended. What is before it is written as the text, if all nodes on the way are shown. -/
inductive ComesTo (context : Context) (shown : Prop) :
    Forest → Run → Text → Element → Forest → Run → Prop
  | here {content : Content} {children next : Forest} {run : Run} {element : Element} :
      content.loop? = some element →
      ComesTo context shown (.node content children next) run [] element children run
  | afterLoop {content : Content} {children next output body : Forest} {run after start : Run}
      {depth : Nat} {before : Text} {element found : Element} :
      content.loop? = some element →
      resolveLoop context (resolveLoops context depth) run element children = some (after, output) →
      ComesTo context shown next after before found body start →
      ComesTo context shown (.node content children next) run (written output ++ before) found body
        start
  | inside {content : Content} {children next body : Forest} {run start : Run} {before : Text}
      {found : Element} :
      content.loop? = none →
      (shown → content.isElement (·.isLink) = false ∧ content.showsChildren = true) →
      ComesTo context shown children run before found body start →
      ComesTo context shown (.node content children next) run (content.opening ++ before) found body
        start
  | after {content : Content} {children next output body : Forest} {run after start : Run}
      {depth : Nat} {before : Text} {found : Element} :
      content.loop? = none → resolveLoops context depth run children = some (after, output) →
      ComesTo context shown next after before found body start →
      ComesTo context shown (.node content children next) run
        (content.writtenAs (written output) before) found body start

/-- What an iteration reads, before its tags are resolved. -/
def iterationRead (loop : Loop) (body : List Piece) (entry : Value × Value) (run : Run) : Pass :=
  let model := loop.bind run.model entry
  Run.read { run with model } (iterationText model body)

theorem iterationPass_eq (context : Context) (loop : Loop) (body : List Piece)
    (entry : Value × Value) (run : Run) :
    iterationPass context loop body entry run =
      resolveTags context (iterationRead loop body entry run).1
        (iterationRead loop body entry run).2 := rfl

/-- The iterations of a loop for these entries come to reading this, and the iterations before it
have ended, which are written as the text. -/
inductive Loop.Reads (context : Context) (loop : Loop) (body : List Piece) :
    List (Value × Value) → Run → Text → Pass → Prop
  | first {entry : Value × Value} {entries : List (Value × Value)} {run : Run} :
      loop.Reads context body (entry :: entries) run [] (iterationRead loop body entry run)
  | later {entry : Value × Value} {entries : List (Value × Value)} {run after : Run} {depth : Nat}
      {output : Forest} {earlier : Text} {read : Pass} :
      resolveLoops context depth (iterationPass context loop body entry run).1
        (iterationPass context loop body entry run).2 = some (after, output) →
      loop.Reads context body entries after earlier read →
      loop.Reads context body (entry :: entries) run (written output ++ earlier) read

/-- An iteration of a loop that the pass comes to reads this. What is before it is written as the
text, if it is shown. -/
inductive Reads (context : Context) (shown : Prop) (outer : Pass) : Text → Pass → Prop
  | iteration {before earlier : Text} {element : Element} {body : Forest} {start : Run}
      {loop : Loop} {read : Pass} :
      ComesTo context shown outer.2 outer.1 before element body start →
      Loop.read start.model element = .ok loop →
      loop.Reads context (bodyPieces body) loop.entries start earlier read →
      Reads context shown outer (before ++ earlier) read

/-- A part of a pass spends no budget that is not spent after the pass, and if it is shown, it is
written behind the text. -/
structure PartOf (shown : Prop) (before : Text) (part whole : Pass) : Prop where
  spent : part.1.budget = .spent → whole.1.budget = .spent
  written : shown → ∃ rest, written whole.2 = before ++ (written part.2 ++ rest)

namespace PartOf

variable {shown : Prop} {before earlier : Text} {part whole outer : Pass}

theorem trans (h : PartOf shown before whole outer) (h' : PartOf shown earlier part whole) :
    PartOf shown (before ++ earlier) part outer where
  spent hb := h.spent (h'.spent hb)
  written hs := by
    obtain ⟨rest, hw⟩ := h.written hs
    obtain ⟨others, hw'⟩ := h'.written hs
    exact ⟨others ++ rest, by rw [hw, hw']; simp only [List.append_assoc]⟩

end PartOf

/-- A loop that a pass comes to has an end if the pass does, as a part of it. -/
theorem ComesTo.ends {context : Context} {shown : Prop} {forest body : Forest} {run start : Run}
    {before : Text} {element : Element} {whole : Pass} {depth : Nat}
    (comes : ComesTo context shown forest run before element body start)
    (h : replaceLoops (resolveLoop context (resolveLoops context depth)) forest run = some whole) :
    ∃ part, resolveLoop context (resolveLoops context depth) start element body = some part ∧
      PartOf shown before part whole := by
  have spent {forest : Forest} {run : Run} {pass : Pass}
      (hp : replaceLoops (resolveLoop context (resolveLoops context depth)) forest run = some pass)
      (hb : run.budget = .spent) : pass.1.budget = .spent :=
    @resolveLoops_spent context (depth + 1) run forest pass hp hb
  induction comes generalizing whole with
  | here hl =>
    obtain ⟨part, rest, hi, hr, rfl⟩ := (replaceLoops_loop_eq_some_iff hl).mp h
    have last : part.1.budget = .spent → rest.1.budget = .spent := spent hr
    exact ⟨part, hi, last, fun _ => ⟨_, written_append ..⟩⟩
  | @afterLoop _ _ _ _ _ _ _ _ other _ _ _ hl hd _ ih =>
    obtain ⟨first, rest, hf, hr, rfl⟩ := (replaceLoops_loop_eq_some_iff hl).mp h
    -- The loop before this one has ended within another depth, so with the same result.
    have hmax := resolveLoop_deeper (Nat.le_max_left depth other) hf
    rw [resolveLoop_deeper (Nat.le_max_right depth other) hd, Option.some.injEq] at hmax
    rw [← hmax] at hr ⊢
    obtain ⟨part, hi, later⟩ := ih hr
    refine ⟨part, hi, later.spent, fun hs => ?_⟩
    obtain ⟨others, hw⟩ := later.written hs
    exact ⟨others, by rw [written_append, hw, List.append_assoc]⟩
  | @inside content _ _ _ _ _ _ _ hl hshown _ ih =>
    obtain ⟨first, rest, hf, hr, rfl⟩ := (replaceLoops_other_eq_some_iff hl).mp h
    obtain ⟨part, hi, inner⟩ := ih hf
    have last : part.1.budget = .spent → rest.1.budget = .spent :=
      fun hb => spent hr (inner.spent hb)
    refine ⟨part, hi, last, fun hs => ?_⟩
    obtain ⟨others, hw⟩ := inner.written hs
    obtain ⟨hlink, hshows⟩ := hshown hs
    refine ⟨others ++ (content.closing ++ written rest.2), ?_⟩
    rw [written_node, hw, Content.writtenAs, hlink, hshows]
    simp only [Bool.false_eq_true, if_false, if_true, List.append_assoc]
  | after hl hd _ ih =>
    obtain ⟨first, rest, hf, hr, rfl⟩ := (replaceLoops_other_eq_some_iff hl).mp h
    have hf' : resolveLoops context (depth + 1) _ _ = some first := hf
    rw [resolveLoops_unique hf' hd] at hr ⊢
    obtain ⟨part, hi, later⟩ := ih hr
    refine ⟨part, hi, later.spent, fun hs => ?_⟩
    obtain ⟨others, hw⟩ := later.written hs
    refine ⟨others, ?_⟩
    rw [written_node, hw, Content.writtenAs, Content.writtenAs, List.append_assoc]

/-- The same of what an iteration reads, as a part of its loop. -/
theorem Loop.Reads.ends {context : Context} {shown : Prop} {loop : Loop} {body : List Piece}
    {entries : List (Value × Value)} {run : Run} {earlier : Text} {read whole : Pass} {depth : Nat}
    (reads : loop.Reads context body entries run earlier read)
    (h : iterate context (resolveLoops context depth) loop body entries run = some whole) :
    ∃ part, resolveLoops context depth (resolveTags context read.1 read.2).1
        (resolveTags context read.1 read.2).2 = some part ∧ PartOf shown earlier part whole := by
  induction reads generalizing whole with
  | first =>
    obtain ⟨part, rest, hf, hr, rfl⟩ := iterate_cons_eq_some_iff.mp h
    rw [iterationPass_eq] at hf
    have last : part.1.budget = .spent → rest.1.budget = .spent := iterate_spent hr
    exact ⟨part, hf, last, fun _ => ⟨_, written_append ..⟩⟩
  | later hd _ ih =>
    obtain ⟨first, rest, hf, hr, rfl⟩ := iterate_cons_eq_some_iff.mp h
    rw [resolveLoops_unique hf hd] at hr ⊢
    obtain ⟨part, hi, last⟩ := ih hr
    refine ⟨part, hi, last.spent, fun hs => ?_⟩
    obtain ⟨others, hw⟩ := last.written hs
    exact ⟨others, by rw [written_append, hw, List.append_assoc]⟩

/-- The same of what an iteration reads, as a part of the pass that comes to its loop. -/
theorem Reads.ends {context : Context} {shown : Prop} {before : Text} {outer read whole : Pass}
    {depth : Nat} (reads : Reads context shown outer before read)
    (h : resolveLoops context depth outer.1 outer.2 = some whole) :
    ∃ part, resolveLoops context depth (resolveTags context read.1 read.2).1
        (resolveTags context read.1 read.2).2 = some part ∧ PartOf shown before part whole := by
  obtain ⟨comes, hread, hreads⟩ := reads
  have deeper : replaceLoops (resolveLoop context (resolveLoops context depth)) outer.2 outer.1 =
      some whole := resolveLoops_mono (Nat.le_succ depth) h
  obtain ⟨output, ho, outside⟩ := comes.ends deeper
  rw [resolveLoop_of_read hread] at ho
  obtain ⟨part, hp, inside⟩ := hreads.ends ho
  exact ⟨part, hp, outside.trans inside⟩

section Spending

variable {context : Context}

theorem iterate_reads {depth : Nat} {loop : Loop} {body : List Piece}
    {entries : List (Value × Value)} {run : Run} {pass : Pass}
    (h : iterate context (resolveLoops context depth) loop body entries run = some pass)
    (started : run.budget ≠ .spent) (ended : pass.1.budget = .spent) :
    ∃ earlier read inside, loop.Reads context body entries run earlier read ∧
      read.1.budget ≠ .spent ∧ resolveLoops context depth (resolveTags context read.1 read.2).1
        (resolveTags context read.1 read.2).2 = some inside ∧ inside.1.budget = .spent := by
  induction entries generalizing run pass with
  | nil =>
    cases Option.some.inj h
    exact absurd ended started
  | cons entry entries ih =>
    obtain ⟨first, rest, hf, hr, rfl⟩ := iterate_cons_eq_some_iff.mp h
    by_cases hb : first.1.budget = .spent
    · exact ⟨_, _, first, .first, started, hf, hb⟩
    · have last : rest.1.budget = .spent := ended
      obtain ⟨_, read, inside, hreads, found⟩ := ih hr hb last
      exact ⟨_, read, inside, .later hf hreads, found⟩

/-- A pass that spends the budget spends it in an iteration of one of its loops. -/
theorem replaceLoops_reads {depth : Nat} {forest : Forest} {run : Run} {pass : Pass}
    (h : replaceLoops (resolveLoop context (resolveLoops context depth)) forest run = some pass)
    (started : run.budget ≠ .spent) (ended : pass.1.budget = .spent) :
    ∃ before read inside, Reads context False (run, forest) before read ∧
      read.1.budget ≠ .spent ∧
      resolveLoops context depth (resolveTags context read.1 read.2).1
        (resolveTags context read.1 read.2).2 = some inside ∧ inside.1.budget = .spent := by
  suffices found : ∃ before element body start loop earlier read inside,
      ComesTo context False forest run before element body start ∧
        Loop.read start.model element = .ok loop ∧
        loop.Reads context (bodyPieces body) loop.entries start earlier read ∧
        read.1.budget ≠ .spent ∧ resolveLoops context depth (resolveTags context read.1 read.2).1
          (resolveTags context read.1 read.2).2 = some inside ∧ inside.1.budget = .spent by
    obtain ⟨_, _, _, _, _, _, read, inside, comes, hl, hreads, rest⟩ := found
    exact ⟨_, read, inside, .iteration comes hl hreads, rest⟩
  induction forest generalizing run pass with
  | nil =>
    cases Option.some.inj h
    exact absurd ended started
  | node content children next ihc ihn =>
    cases hl : content.loop? with
    | some element =>
      obtain ⟨first, rest, hf, hr, rfl⟩ := (replaceLoops_loop_eq_some_iff hl).mp h
      have last : rest.1.budget = .spent := ended
      by_cases hb : first.1.budget = .spent
      · cases hread : Loop.read run.model element with
        | error notice =>
          rw [resolveLoop_of_error hread] at hf
          cases Option.some.inj hf
          exact absurd hb started
        | ok loop =>
          rw [resolveLoop_of_read hread] at hf
          obtain ⟨_, read, inside, hreads, found⟩ := iterate_reads hf started hb
          exact ⟨_, element, children, run, loop, _, read, inside, .here hl, hread, hreads, found⟩
      · obtain ⟨_, e, body, start, loop, _, read, inside, comes, found⟩ := ihn hr hb last
        exact ⟨_, e, body, start, loop, _, read, inside, .afterLoop hl hf comes, found⟩
    | none =>
      obtain ⟨first, rest, hf, hr, rfl⟩ := (replaceLoops_other_eq_some_iff hl).mp h
      have last : rest.1.budget = .spent := ended
      by_cases hb : first.1.budget = .spent
      · obtain ⟨_, e, body, start, loop, _, read, inside, comes, found⟩ := ihc hf started hb
        exact ⟨_, e, body, start, loop, _, read, inside, .inside hl nofun comes, found⟩
      · obtain ⟨_, e, body, start, loop, _, read, inside, comes, found⟩ := ihn hr hb last
        have hf' : resolveLoops context (depth + 1) run children = some first := hf
        exact ⟨_, e, body, start, loop, _, read, inside, .after hl hf' comes, found⟩

end Spending

end MarkupTemplate
