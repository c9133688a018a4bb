import MarkupTemplate.Render.Loop

namespace MarkupTemplate

/-- The outcome of a render: the text, the notices in order, and for each include that was expanded
the template that it asked for, in order. -/
structure Rendering where
  text : Text
  notices : List Notice
  expanded : List (Option Text)

/-- The document before its placeholders are replaced for the last time. -/
def resolveDocument (context : Context) (depth : Nat) (model : Model) (compiled : Text) :
    Option (Run × Forest) := do
  let (run, forest) := (Run.start context model).read compiled
  let (run, forest) := resolveTags context run forest
  let (run, forest) ← resolveLoops context depth run forest
  some (run, removeLinks forest)

/-- Renders a compiled text with loops up to `depth` inside each other. -/
def render? (context : Context) (depth : Nat) (model : Model) (compiled : Text) :
    Option Rendering := do
  let (run, forest) ← resolveDocument context depth model compiled
  let markup := forest.markup
  let missing := (unresolved run.model markup).map fun path => .unresolved (placeholderText path)
  some ⟨substitute run.model markup, (run.noteAll missing).notices.reverse, run.expanded.reverse⟩

end MarkupTemplate
