import MarkupTemplate.Proofs.Render.TextDivision
import MarkupTemplate.Proofs.Render.LoopNesting

namespace MarkupTemplate

open Forest

/-- What a forest is written as once the links that no chain has taken are gone. -/
def written (forest : Forest) : Text :=
  (removeLinks forest).markup

/-- A node as it is written in the end, with the texts of its children and of what follows. -/
def Content.writtenAs (content : Content) (inside rest : Text) : Text :=
  (if content.isElement (·.isLink) then []
    else content.opening ++ if content.showsChildren then inside ++ content.closing else []) ++ rest

theorem written_node (content : Content) (children next : Forest) :
    written (.node content children next) =
      content.writtenAs (written children) (written next) := by
  unfold written Content.writtenAs
  rw [removeLinks]
  split
  next => rw [List.nil_append]
  next => rw [markup_node]

theorem written_append (a b : Forest) : written (a ++ b) = written a ++ written b := by
  induction a with
  | nil => rfl
  | node content children next _ ih =>
    rw [node_append, written_node, written_node, ih, Content.writtenAs, Content.writtenAs,
      List.append_assoc]

theorem written_text (shown : Text) (children next : Forest) :
    written (.node (.text shown) children next) = shown ++ written next := by
  rw [written_node]
  exact congrArg (· ++ written next) (List.append_nil shown)

/-- An iteration: the text that is read in it, and the pass over the loops inside that it begins. -/
structure Reading where
  text : Text
  pass : Pass

/-- What a pass comes to, if it ends, with the iterations on its way. -/
structure Course where
  result : Option Pass
  readings : List Reading

namespace Course

/-- A course that goes on from the run that the first one ends with. -/
def andThen (first : Course) (rest : Run → Course) (join : Forest → Forest → Forest) : Course where
  result := first.result.bind fun inside => (rest inside.1).result.bind fun last =>
    some (last.1, join inside.2 last.2)
  readings := first.readings ++ first.result.elim [] fun inside => (rest inside.1).readings

theorem andThen_result (first : Course) (rest : Run → Course) (join : Forest → Forest → Forest) :
    (first.andThen rest join).result = first.result.bind fun inside =>
      (rest inside.1).result.bind fun last => some (last.1, join inside.2 last.2) := rfl

end Course

/-- The iterations of a loop, one after the other. -/
def iterateCourse (context : Context) (inner : Run → Forest → Course) (loop : Loop)
    (body : List Piece) : List (Value × Value) → Run → Course
  | [], run => ⟨some (run, .nil), []⟩
  | entry :: entries, run =>
    let text := iterationText (loop.bind run.model entry) body
    let pass := iterationPass context loop body entry run
    let first := inner pass.1 pass.2
    Course.andThen ⟨first.result, ⟨text, pass⟩ :: first.readings⟩
      (iterateCourse context inner loop body entries) (· ++ ·)

/-- What is put in the place of a loop element with its body. -/
def loopCourse (context : Context) (inner : Run → Forest → Course) (run : Run)
    (element : Element) (body : Forest) : Course :=
  match Loop.read run.model element with
  | .error notice => ⟨some (run.note notice, .nil), []⟩
  | .ok loop => iterateCourse context inner loop (bodyPieces body) loop.entries run

/-- The outermost loops of a forest, in document order. -/
def forestCourse (output : Run → Element → Forest → Course) : Forest → Run → Course
  | .nil, run => ⟨some (run, .nil), []⟩
  | .node content children next, run =>
    match content.loop? with
    | some element => (output run element children).andThen (forestCourse output next) (· ++ ·)
    | none => (forestCourse output children run).andThen (forestCourse output next) (.node content)

/-- The course of a pass over loops, with loops up to `depth` inside each other. -/
def passCourse (context : Context) : Nat → Run → Forest → Course
  | 0, run, forest => forestCourse (fun _ _ _ => ⟨none, []⟩) forest run
  | depth + 1, run, forest =>
    forestCourse (loopCourse context (passCourse context depth)) forest run

/-- The iterations of a render in the order in which they begin. -/
def readings (context : Context) (depth : Nat) (model : Model) (compiled : Text) : List Reading :=
  let start := documentPass context model compiled
  (passCourse context depth start.1 start.2).readings

theorem forestCourse_loop {output : Run → Element → Forest → Course} {content : Content}
    {children next : Forest} {run : Run} {element : Element} (h : content.loop? = some element) :
    forestCourse output (.node content children next) run =
      (output run element children).andThen (forestCourse output next) (· ++ ·) := by
  rw [forestCourse, h]

theorem forestCourse_other {output : Run → Element → Forest → Course} {content : Content}
    {children next : Forest} {run : Run} (h : content.loop? = none) :
    forestCourse output (.node content children next) run =
      (forestCourse output children run).andThen (forestCourse output next) (.node content) := by
  rw [forestCourse, h]

theorem iterateCourse_result (context : Context) {inner : Run → Forest → Course}
    {resolve : Run → Forest → Option Pass}
    (h : ∀ run forest, (inner run forest).result = resolve run forest) (loop : Loop)
    (body : List Piece) (entries : List (Value × Value)) (run : Run) :
    (iterateCourse context inner loop body entries run).result =
      iterate context resolve loop body entries run := by
  induction entries generalizing run with
  | nil => rfl
  | cons entry entries ih =>
    simp only [iterate_cons, iterateCourse, Course.andThen_result, h, ih]

theorem forestCourse_result {output : Run → Element → Forest → Course}
    {resolve : Run → Element → Forest → Option Pass}
    (h : ∀ run element body, (output run element body).result = resolve run element body)
    (forest : Forest) (run : Run) :
    (forestCourse output forest run).result = replaceLoops resolve forest run := by
  induction forest generalizing run with
  | nil => rfl
  | node content children next ihc ih =>
    cases hl : content.loop? with
    | some element =>
      rw [forestCourse_loop hl, replaceLoops_loop hl]
      simp only [Course.andThen_result, h, ih]
    | none =>
      rw [forestCourse_other hl, replaceLoops_other hl]
      simp only [Course.andThen_result, ihc, ih]

/-- The course of a pass leads to what the pass comes to. -/
theorem passCourse_result (context : Context) (depth : Nat) (run : Run) (forest : Forest) :
    (passCourse context depth run forest).result = resolveLoops context depth run forest := by
  induction depth generalizing run forest with
  | zero => exact forestCourse_result (fun _ _ _ => rfl) forest run
  | succ depth ih =>
    refine forestCourse_result (fun run element body => ?_) forest run
    rw [loopCourse]
    cases hr : Loop.read run.model element with
    | error notice => rw [resolveLoop_of_error hr]
    | ok loop =>
      rw [resolveLoop_of_read hr]
      exact iterateCourse_result context ih loop _ _ run

theorem iterationPass_of_alike {a b : Forest} (h : Alike a b) (context : Context) (loop : Loop)
    (entry : Value × Value) (run : Run) :
    iterationPass context loop (bodyPieces a) entry run =
      iterationPass context loop (bodyPieces b) entry run := by
  simp only [iterationPass, h.iterationText]

/-- The run that a course ends with, and what its forest is written as. -/
def Course.outcome (course : Course) : Option (Run × Text) :=
  course.result.map fun pass => (pass.1, written pass.2)

/-- Courses with the same iterations, and with forests that are written alike in the end. -/
structure Course.Alike (a b : Course) : Prop where
  outcome : a.outcome = b.outcome
  readings : a.readings = b.readings

namespace Course.Alike

variable {a b c : Course}

theorem refl (a : Course) : a.Alike a :=
  ⟨rfl, rfl⟩

theorem symm (h : a.Alike b) : b.Alike a :=
  ⟨h.outcome.symm, h.readings.symm⟩

theorem exists_result (h : a.Alike b) {pass : Pass} (ha : a.result = some pass) :
    ∃ other, b.result = some other ∧ other.1 = pass.1 ∧ written other.2 = written pass.2 := by
  have same := h.outcome
  rw [Course.outcome, Course.outcome, ha] at same
  obtain ⟨other, hb, he⟩ := Option.map_eq_some_iff.mp same.symm
  obtain ⟨hrun, htext⟩ := Prod.mk.inj he
  exact ⟨other, hb, hrun, htext⟩

theorem result_eq_none (h : a.Alike b) (ha : a.result = none) : b.result = none := by
  have same := h.outcome
  rw [Course.outcome, Course.outcome, ha] at same
  exact Option.map_eq_none_iff.mp same.symm

theorem andThen (h : a.Alike b) {rest rest' : Run → Course}
    (hr : ∀ run, (rest run).Alike (rest' run)) {join join' : Forest → Forest → Forest}
    (hj : ∀ {x y x' y' : Forest}, written x = written x' → written y = written y' →
      written (join x y) = written (join' x' y')) :
    (a.andThen rest join).Alike (b.andThen rest' join') := by
  unfold Course.andThen
  cases ha : a.result with
  | none =>
    rw [h.result_eq_none ha]
    exact ⟨rfl, by rw [h.readings]; rfl⟩
  | some inside =>
    obtain ⟨inside', hb, hrun, htext⟩ := h.exists_result ha
    have alike := hr inside.1
    rw [hb]
    constructor
    · simp only [Course.outcome, Option.bind_some, hrun]
      cases hl : (rest inside.1).result with
      | none =>
        rw [alike.result_eq_none hl]
        rfl
      | some last =>
        obtain ⟨last', hl', hrun', htext'⟩ := alike.exists_result hl
        rw [hl']
        simp [hrun', hj htext.symm htext'.symm]
    · change a.readings ++ (rest inside.1).readings = b.readings ++ (rest' inside'.1).readings
      rw [h.readings, hrun, alike.readings]

end Course.Alike

theorem iterateCourse_of_alike {a b : Forest} (h : Alike a b) (context : Context)
    (inner : Run → Forest → Course) (loop : Loop) (entries : List (Value × Value)) (run : Run) :
    iterateCourse context inner loop (bodyPieces a) entries run =
      iterateCourse context inner loop (bodyPieces b) entries run := by
  induction entries generalizing run with
  | nil => rfl
  | cons entry entries ih =>
    have rest : iterateCourse context inner loop (bodyPieces a) entries =
        iterateCourse context inner loop (bodyPieces b) entries := funext ih
    simp only [iterateCourse, iterationPass_of_alike h, h.iterationText, rest]

theorem loopCourse_of_alike {a b : Forest} (h : Alike a b) (context : Context)
    (inner : Run → Forest → Course) (run : Run) (element : Element) :
    loopCourse context inner run element a = loopCourse context inner run element b := by
  rw [loopCourse, loopCourse]
  cases Loop.read run.model element with
  | error => rfl
  | ok loop => exact iterateCourse_of_alike h context inner loop _ run

section Divided

variable (output : Run → Element → Forest → Course)

theorem forestCourse_text (shown : Text) (next : Forest) (run : Run) :
    (forestCourse output (.node (.text shown) .nil next) run).outcome =
        (forestCourse output next run).outcome.map (fun rest => (rest.1, shown ++ rest.2)) ∧
      (forestCourse output (.node (.text shown) .nil next) run).readings =
        (forestCourse output next run).readings := by
  rw [forestCourse_other rfl]
  refine ⟨?_, rfl⟩
  rw [Course.outcome, Course.andThen_result, forestCourse, Option.bind_some, Course.outcome]
  cases (forestCourse output next run).result with
  | none => rfl
  | some rest => exact congrArg (fun text => some (rest.1, text)) (written_text shown .nil rest.2)

theorem forestCourse_characters (shown : Text) (next : Forest) (run : Run) :
    (forestCourse output (characters shown next) run).outcome =
        (forestCourse output next run).outcome.map (fun rest => (rest.1, shown ++ rest.2)) ∧
      (forestCourse output (characters shown next) run).readings =
        (forestCourse output next run).readings := by
  induction shown with
  | nil => exact ⟨Option.map_id'.symm, rfl⟩
  | cons c shown ih =>
    obtain ⟨houtcome, hreadings⟩ := forestCourse_text output [c] (characters shown next) run
    rw [characters, houtcome, hreadings, ih.1, ih.2, Option.map_map]
    exact ⟨rfl, rfl⟩

theorem forestCourse_text_alike (shown : Text) (next : Forest) (run : Run) :
    (forestCourse output (.node (.text shown) .nil next) run).Alike
      (forestCourse output (characters shown next) run) := by
  obtain ⟨hto, htr⟩ := forestCourse_text output shown next run
  obtain ⟨hco, hcr⟩ := forestCourse_characters output shown next run
  exact ⟨by rw [hto, hco], by rw [htr, hcr]⟩

/-- How texts are divided changes nothing in what a pass over loops comes to. -/
theorem Forest.Split.course {forest split : Forest} (h : Split forest split)
    (bodies : ∀ {a b : Forest}, Alike a b →
      ∀ run element, output run element a = output run element b)
    (run : Run) : (forestCourse output forest run).Alike (forestCourse output split run) := by
  induction h generalizing run with
  | nil => exact .refl _
  | @text shown next next' hn ih =>
    obtain ⟨hto, htr⟩ := forestCourse_text output shown next run
    obtain ⟨hco, hcr⟩ := forestCourse_characters output shown next' run
    exact ⟨by rw [hto, hco, (ih run).outcome], by rw [htr, hcr, (ih run).readings]⟩
  | @node content _ _ _ _ _ hchildren _ ihc ih =>
    cases hl : content.loop? with
    | some element =>
      rw [forestCourse_loop hl, forestCourse_loop hl, bodies hchildren.alike]
      exact (Course.Alike.refl _).andThen ih fun hx hy => by
        rw [written_append, written_append, hx, hy]
    | none =>
      rw [forestCourse_other hl, forestCourse_other hl]
      exact (ihc run).andThen ih fun hx hy => by rw [written_node, written_node, hx, hy]

end Divided

theorem Forest.Split.passCourse {forest split : Forest} (h : Split forest split)
    (context : Context) (depth : Nat) (run : Run) :
    (passCourse context depth run forest).Alike (passCourse context depth run split) := by
  cases depth with
  | zero => exact h.course _ (fun _ _ _ => rfl) run
  | succ depth =>
    exact h.course _ (fun hab run element => loopCourse_of_alike hab context _ run element) run

end MarkupTemplate
