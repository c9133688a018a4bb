import MarkupTemplate.Proofs.Render.UnfoldedPasses

namespace MarkupTemplate

open Forest

variable {context : Context} {part : Part context} {now last : Model} {may : Text → Prop}
variable {looped : Prop}

/-- If the first course ends with budget left, and each of its iterations is related to that of the
second one, so does the second, and some placeholders are filled ahead in what it writes. If no
loop is left open, the iterations need not be looked at. -/
def Follows (part : Part context) (last : Model) (may : Text → Prop) (looped : Prop)
    (first second : Course) : Prop :=
  ∀ pass, first.result = some pass → pass.1.budget ≠ .spent →
    (looped → ∀ pair ∈ first.readings.zip second.readings,
      pair.1.Unfolds part last may pair.2) →
    second.readings.length = first.readings.length ∧ ∃ other, second.result = some other ∧
      Ahead pass.1 other.1 ∧ FilledAhead (Lasting last may) (written pass.2) (written other.2)

theorem mem_zip_append {α β : Type} {a c : List α} {b d : List β} {pair : α × β}
    (h : pair ∈ a.zip b) : pair ∈ (a ++ c).zip (b ++ d) := by
  induction a generalizing b with
  | nil => cases h
  | cons x a ih =>
    cases b with
    | nil => cases h
    | cons y b =>
      rw [List.zip_cons_cons, List.mem_cons] at h
      rw [List.cons_append, List.cons_append, List.zip_cons_cons, List.mem_cons]
      exact h.imp_right ih

variable {fills : Text → Text → Prop}

theorem filledAhead_written_append {a b c d : Forest}
    (h : FilledAhead fills (written a) (written b))
    (h' : FilledAhead fills (written c) (written d)) :
    FilledAhead fills (written (a ++ c)) (written (b ++ d)) := by
  rw [written_append, written_append]
  exact h.append h'

theorem filledAhead_written_node {content content' : Content}
    (hs : content.Settles now fills content') {a b c d : Forest}
    (h : FilledAhead fills (written a) (written b))
    (h' : FilledAhead fills (written c) (written d)) :
    FilledAhead fills (written (.node content a c)) (written (.node content' b d)) := by
  rw [written_node, written_node, Content.writtenAs, Content.writtenAs, hs.isLink,
    hs.showsChildren]
  refine FilledAhead.append ?_ h'
  split
  next => exact .nil
  next =>
    refine hs.opening.append ?_
    split
    next => exact h.append hs.closing
    next => exact .nil

namespace Follows

variable {first second : Course}

theorem done {run run' : Run} {forest : Forest} (h : Ahead run run') :
    Follows part last may looped ⟨some (run, forest), []⟩ ⟨some (run', forest), []⟩ := by
  intro pass hp _ _
  cases Option.some.inj hp
  exact ⟨rfl, _, rfl, h, .refl _⟩

theorem congr {first' second' : Course} (h : Follows part last may looped first second)
    (hf : first'.Alike first) (hs : second.Alike second') :
    Follows part last may looped first' second' := by
  intro pass hp left hr
  obtain ⟨between, hbetween, hrun, htext⟩ := hf.exists_result hp
  rw [hf.readings, ← hs.readings] at hr ⊢
  obtain ⟨hlen, other, ho, ahead, hw⟩ := h between hbetween (by rwa [hrun]) hr
  obtain ⟨last, hl, hrun', htext'⟩ := hs.exists_result ho
  refine ⟨hlen, last, hl, ?_, ?_⟩
  · rw [hrun', ← hrun]
    exact ahead
  · rw [htext', ← htext]
    exact hw

/-- Courses that follow each other do so with what goes on from their runs. -/
theorem andThen {rest rest' : Run → Course} {join join' : Forest → Forest → Forest}
    (spent : ∀ {run pass}, (rest run).result = some pass → run.budget = .spent →
      pass.1.budget = .spent)
    (hjoin : ∀ {a b c d : Forest}, FilledAhead (Lasting last may) (written a) (written b) →
      FilledAhead (Lasting last may) (written c) (written d) →
      FilledAhead (Lasting last may) (written (join a c)) (written (join' b d)))
    (h : Follows part last may looped first second)
    (hr : ∀ {run run' : Run}, Ahead run run' →
      Follows part last may looped (rest run) (rest' run')) :
    Follows part last may looped (first.andThen rest join) (second.andThen rest' join') := by
  intro pass hp left hreadings
  rw [Course.andThen_result] at hp
  obtain ⟨inside, hi, hp⟩ := Option.bind_eq_some_iff.mp hp
  obtain ⟨later, hl, hp⟩ := Option.bind_eq_some_iff.mp hp
  cases Option.some.inj hp
  have hbudget : later.1.budget ≠ .spent := left
  obtain ⟨hlen, inside', hi', ahead, hw⟩ := h inside hi (fun hs => hbudget (spent hl hs))
    fun hd pair hpair => hreadings hd pair (mem_zip_append hpair)
  have readings : (first.andThen rest join).readings =
      first.readings ++ (rest inside.1).readings := by
    simp [Course.andThen, hi]
  have readings' : (second.andThen rest' join').readings =
      second.readings ++ (rest' inside'.1).readings := by
    simp [Course.andThen, hi']
  rw [readings, readings', List.zip_append hlen.symm] at hreadings
  obtain ⟨hlen', later', hl', ahead', hw'⟩ := hr ahead later hl hbudget
    fun hd pair hpair => hreadings hd pair (List.mem_append_right _ hpair)
  refine ⟨?_, (later'.1, join' inside'.2 later'.2), ?_, ahead', hjoin hw hw'⟩
  · rw [readings, readings', List.length_append, List.length_append, hlen, hlen']
  · rw [Course.andThen_result, hi', Option.bind_some, hl', Option.bind_some]

/-- An iteration is followed if it is related to the other one and what is inside is followed. -/
theorem reading {reading reading' : Reading}
    (h : (looped → reading.Unfolds part last may reading') →
      ∀ pass, first.result = some pass → pass.1.budget ≠ .spent →
        Follows part last may looped first second) :
    Follows part last may looped ⟨first.result, reading :: first.readings⟩
      ⟨second.result, reading' :: second.readings⟩ := by
  intro pass hp left hreadings
  obtain ⟨hlen, other⟩ := h (fun hd => (List.forall_mem_cons.mp (hreadings hd)).1) pass hp left pass
    hp left fun hd => (List.forall_mem_cons.mp (hreadings hd)).2
  exact ⟨congrArg (· + 1) hlen, other⟩

end Follows

theorem Content.isElement_isLoop (content : Content) :
    content.isElement (·.isLoop) = content.loop?.isSome := by
  cases content with
  | text | verbatim => rfl
  | element e =>
    rw [loop?, element?, Option.filter_some]
    cases hl : e.isLoop with
    | true => exact hl
    | false => exact hl

section Loops

variable {output : Run → Element → Forest → Course}
variable (spent : ∀ {forest run pass}, (forestCourse output forest run).result = some pass →
  run.budget = .spent → pass.1.budget = .spent)
include spent

theorem follows_node {content content' : Content}
    (hs : content.Settles now (Lasting last may) content')
    (hl : content.isElement (·.isLoop) = false) {children children' next next' : Forest}
    {run run' : Run}
    (hc : Follows part last may looped (forestCourse output children run)
      (forestCourse output children' run'))
    (hn : ∀ {run run'}, Ahead run run' →
      Follows part last may looped (forestCourse output next run)
        (forestCourse output next' run')) :
    Follows part last may looped (forestCourse output (.node content children next) run)
      (forestCourse output (.node content' children' next') run') := by
  have hl' := hs.isLoop.trans hl
  rw [Content.isElement_isLoop, Option.isSome_eq_false_iff, Option.isNone_iff_eq_none] at hl hl'
  rw [forestCourse_other hl, forestCourse_other hl']
  exact hc.andThen spent (filledAhead_written_node hs) hn

theorem follows_characters {shown shown' : Text} (h : FilledAhead (Lasting last may) shown shown')
    {next next' : Forest} {run run' : Run} (ahead : Ahead run run')
    (hn : ∀ {run run'}, Ahead run run' →
      Follows part last may looped (forestCourse output next run)
        (forestCourse output next' run')) :
    Follows part last may looped (forestCourse output (characters shown next) run)
      (forestCourse output (characters shown' next') run') := by
  have undivided : Follows part last may looped
      (forestCourse output (.node (.text shown) .nil next) run)
      (forestCourse output (.node (.text shown') .nil next') run') := by
    rw [forestCourse_other rfl, forestCourse_other rfl]
    refine (Follows.done ahead).andThen spent (fun _ hw => ?_) hn
    rw [written_text, written_text]
    exact h.append hw
  exact undivided.congr (forestCourse_text_alike output shown next run).symm
    (forestCourse_text_alike output shown' next' run')

variable (outputs : ∀ {run run'} (element : Element) {body body' : Forest},
  (looped ∨ body = body') → Ahead run run' →
  Follows part last may looped (output run element body) (output run' element body'))

include outputs

theorem follows_loop {content : Content} (hl : content.isElement (·.isLoop) = true)
    {next next' : Forest}
    (hn : ∀ {run run'}, Ahead run run' →
      Follows part last may looped (forestCourse output next run) (forestCourse output next' run'))
    {children children' : Forest} (hd : looped ∨ children = children') {run run' : Run}
    (ahead : Ahead run run') :
    Follows part last may looped (forestCourse output (.node content children next) run)
      (forestCourse output (.node content children' next') run') := by
  rw [Content.isElement_isLoop] at hl
  obtain ⟨e, he⟩ := Option.isSome_iff_exists.mp hl
  rw [forestCourse_loop he, forestCourse_loop he]
  exact (outputs e hd ahead).andThen spent filledAhead_written_append hn

theorem follows_self (forest : Forest) {run run' : Run} (ahead : Ahead run run') :
    Follows part last may looped (forestCourse output forest run)
      (forestCourse output forest run') := by
  induction forest generalizing run run' with
  | nil => exact .done ahead
  | node content children next ihc ih =>
    cases hl : content.isElement (·.isLoop) with
    | true => exact follows_loop spent outputs hl ih (.inr rfl) ahead
    | false =>
      have settled : content.Settles last (Lasting last may) content := .refl content
      exact follows_node spent settled hl (ihc ahead) ih

theorem Spliced.follows {a a' : Forest} (h : Spliced part now (Lasting last may) looped false a a')
    {run run' : Run} (ahead : Ahead run run') :
    Follows part last may looped (forestCourse output a run) (forestCourse output a' run') := by
  generalize ho : false = outer at h
  induction h generalizing run run' with
  | nil => exact .done ahead
  | @same _ content children next next' _ ih =>
    cases hl : content.isElement (·.isLoop) with
    | true => exact follows_loop spent outputs hl (fun ha => ih ha ho) (.inr rfl) ahead
    | false =>
      have settled : content.Settles now (Lasting last may) content := .refl content
      exact follows_node spent settled hl
        (follows_self spent outputs children ahead) fun ha => ih ha ho
  | into hl _ hs _ _ ihc ih =>
    exact follows_node spent hs hl (ihc ahead ho) fun ha => ih ha ho
  | loop hl hd _ ih => exact follows_loop spent outputs hl (fun ha => ih ha ho) (.inl hd) ahead
  | @fill _ path shown next next' hf hne hp _ ih =>
    rw [← characters_placeholder]
    exact follows_characters spent (filledAhead_placeholder hf hne hp) ahead fun ha => ih ha ho
  | splice => cases ho
  | bound => cases ho

end Loops

/-- The iterations of a loop follow those of a loop with any other body, as long as what they read
is related. -/
theorem iterateCourse_follows {depth : Nat}
    (inner : ∀ {now run run' forest forest'}, Ahead run run' →
      Unfolds part now (Lasting last may) looped false forest forest' →
      Follows part last may looped (passCourse context depth run forest)
        (passCourse context depth run' forest'))
    (loop : Loop) {body body' : List Piece} (hd : looped ∨ body = body')
    (entries : List (Value × Value)) {run run' : Run} (ahead : Ahead run run') :
    Follows part last may looped
      (iterateCourse context (passCourse context depth) loop body entries run)
      (iterateCourse context (passCourse context depth) loop body' entries run') := by
  induction entries generalizing run run' with
  | nil => exact .done ahead
  | cons entry entries ih =>
    have spent {run : Run} {pass : Pass}
        (h : (iterateCourse context (passCourse context depth) loop body entries run).result =
          some pass) : run.budget = .spent → pass.1.budget = .spent := by
      rw [iterateCourse_result context (passCourse_result context depth)] at h
      exact iterate_spent h
    rw [iterateCourse, iterateCourse]
    refine Follows.andThen spent filledAhead_written_append ?_ ih
    refine .reading fun hread pass hp left => ?_
    rw [passCourse_result] at hp
    have start : Ahead { run with model := loop.bind run.model entry }
        { run' with model := loop.bind run'.model entry } :=
      ⟨congrArg (loop.bind · entry) ahead.model, ahead.budget⟩
    obtain ⟨hpass, hforest⟩ := readPass_unfolds start
      (fun hs => left (resolveLoops_spent hp hs)) hread
      (hd.imp_right fun he => by rw [he, ahead.model])
    exact inner hpass hforest

theorem loopCourse_follows {depth : Nat}
    (inner : ∀ {now run run' forest forest'}, Ahead run run' →
      Unfolds part now (Lasting last may) looped false forest forest' →
      Follows part last may looped (passCourse context depth run forest)
        (passCourse context depth run' forest'))
    (element : Element) {body body' : Forest} (hd : looped ∨ body = body') {run run' : Run}
    (ahead : Ahead run run') :
    Follows part last may looped (loopCourse context (passCourse context depth) run element body)
      (loopCourse context (passCourse context depth) run' element body') := by
  rw [loopCourse, loopCourse, ahead.model]
  cases Loop.read run.model element with
  | error notice => exact .done ⟨ahead.model, ahead.budget⟩
  | ok loop => exact iterateCourse_follows inner loop (hd.imp_right (congrArg bodyPieces)) _ ahead

theorem passCourse_spent (context : Context) (depth : Nat) {run : Run} {forest : Forest}
    {pass : Pass} (h : (passCourse context depth run forest).result = some pass) :
    run.budget = .spent → pass.1.budget = .spent := by
  rw [passCourse_result] at h
  exact resolveLoops_spent h

/-- Where the loops of the first forest come to an end with budget left, so do those of the second
one, if their iterations are related. -/
theorem Unfolds.follows {depth : Nat} {run run' : Run} {forest forest' : Forest}
    (h : Unfolds part now (Lasting last may) looped false forest forest') (ahead : Ahead run run') :
    Follows part last may looped (passCourse context depth run forest)
      (passCourse context depth run' forest') := by
  induction depth generalizing now run run' forest forest' with
  | zero =>
    obtain ⟨a, a', hf, hf', hs⟩ := h
    have follows : Follows part last may looped (passCourse context 0 run a)
        (passCourse context 0 run' a') :=
      hs.follows (passCourse_spent context 0) (fun _ _ _ _ _ _ hp => by cases hp) ahead
    exact follows.congr (hf.passCourse context 0 run) (hf'.passCourse context 0 run').symm
  | succ depth ih =>
    obtain ⟨a, a', hf, hf', hs⟩ := h
    have follows : Follows part last may looped (passCourse context (depth + 1) run a)
        (passCourse context (depth + 1) run' a') :=
      hs.follows (passCourse_spent context (depth + 1))
        (fun _ _ _ hd ha => loopCourse_follows (fun ha hf => ih hf ha) _ hd ha) ahead
    exact follows.congr (hf.passCourse context _ run) (hf'.passCourse context _ run').symm

theorem resolveDocument_spent {model : Model} {compiled : Text} {depth : Nat} {run : Run}
    {forest : Forest} (h : resolveDocument context depth model compiled = some (run, forest))
    (hs : (documentPass context model compiled).1.budget = .spent) : run.budget = .spent := by
  rw [resolveDocument_eq] at h
  obtain ⟨pass, hp, he⟩ := Option.bind_eq_some_iff.mp h
  cases Option.some.inj he
  exact resolveLoops_spent hp hs

/-- Where the tags of a document are resolved as those of another one, and the iterations are
related, it comes to an end as the other one does. -/
theorem resolveDocument_follows {model : Model} {compiled compiled' : Text} {depth : Nat}
    {run : Run} {forest : Forest}
    (ahead : Ahead (documentPass context model compiled).1 (documentPass context model compiled').1)
    (unfolds : Unfolds part now (Lasting last may) looped false
      (documentPass context model compiled).2 (documentPass context model compiled').2)
    (iterations : looped → ∀ pair ∈ (readings context depth model compiled).zip
      (readings context depth model compiled'), pair.1.Unfolds part last may pair.2)
    (h : resolveDocument context depth model compiled = some (run, forest))
    (left : run.budget ≠ .spent) :
    ∃ run' forest', resolveDocument context depth model compiled' = some (run', forest') ∧
      Ahead run run' ∧ FilledAhead (Lasting last may) forest.markup forest'.markup := by
  rw [resolveDocument_eq] at h ⊢
  obtain ⟨pass, hp, he⟩ := Option.bind_eq_some_iff.mp h
  cases Option.some.inj he
  rw [← passCourse_result] at hp
  obtain ⟨-, other, ho, ha, hw⟩ := unfolds.follows ahead pass hp left iterations
  rw [passCourse_result] at ho
  exact ⟨other.1, removeLinks other.2, by rw [ho, Option.bind_some], ha, hw⟩

end MarkupTemplate
