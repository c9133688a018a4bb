import MarkupTemplate.Data.Model
import MarkupTemplate.Render.Notice

namespace MarkupTemplate

/-- The include expansions that a render may still make, until it has asked for one too many. -/
inductive Budget where
  | remaining (steps : Nat)
  | spent
deriving DecidableEq, Repr

/-- What stays the same during a render: the compiled templates, the number of include expansions
that it may make, and how much it tells. -/
structure Context where
  template : Text → Except LoadError Text
  maxSteps : Nat
  verbosity : Verbosity := .concise

/-- The state of a render: the model, the budget, how much is told, the notices that were told, and
for each include that was expanded the template that it asked for, if it named one. Of the notices
and the includes the last ones come first. -/
structure Run where
  model : Model
  budget : Budget
  verbosity : Verbosity
  notices : List Notice := []
  expanded : List (Option Text) := []

namespace Run

/-- The state at the start of a render. -/
def start (context : Context) (model : Model) : Run :=
  { model, budget := .remaining context.maxSteps, verbosity := context.verbosity }

/-- Notes something, if the verbosity asks for it. -/
def note (run : Run) (notice : Notice) : Run :=
  { run with notices := Notice.told run.verbosity [notice] ++ run.notices }

/-- Notes several things in order, those that the verbosity asks for. -/
def noteAll (run : Run) (notices : List Notice) : Run :=
  { run with notices := (Notice.told run.verbosity notices).reverseAux run.notices }

/-- Reads a text as a forest and notes the repairs. -/
def read (run : Run) (text : Text) : Run × Forest :=
  let found := readForest text
  (run.noteAll (found.2.map .markup), found.1)

end Run

end MarkupTemplate
