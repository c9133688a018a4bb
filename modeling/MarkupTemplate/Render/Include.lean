import MarkupTemplate.Markup.Place
import MarkupTemplate.Render.Condition
import MarkupTemplate.Render.Run
import MarkupTemplate.Template.Placeholder

namespace MarkupTemplate

/-- The place lies in a loop. -/
def Place.inLoop (place : Place) : Bool :=
  place.ancestors.any (·.isElement (·.isLoop))

/-- The first include outside of loops. -/
def firstInclude? (forest : Forest) : Option Place :=
  forest.find? fun place => place.content.isElement (·.isInclusion) && !place.inLoop

/-- A template that holds a doctype is a whole document. -/
def isDocument (template : Text) : Bool :=
  containsText "<!doctype".toList (lowerText template)

/-- Binds the arguments among the children of an include, in order, and notes all other children
that show. An argument without a name stops it. -/
def bindArguments (source : Text) : Forest → Run → Text → Run × Option Text
  | .nil, run, template => (run, some template)
  | .node content children next, run, template =>
    match content with
    | .element element =>
      if element.role = .argument then
        match element.attributes with
        | [] => (run.note (.argumentWithoutName source), none)
        | attr :: _ =>
          bindArguments source next run
            (bindArgument (lowerText attr.name) children.markup template)
      else
        let markup := (Forest.node content children .nil).markup
        bindArguments source next (run.note (.notAnArgument markup source)) template
    | .text text =>
      if isBlankText text then bindArguments source next run template
      else bindArguments source next (run.note (.textInInclude source)) template
    | .verbatim _ => bindArguments source next run template

/-- Puts the template that an include asks for in its place, or in the place of the whole forest if
it is a document. An include that fails is removed. -/
def resolveInclude (context : Context) (run : Run) (place : Place) : Run × Forest :=
  let asked := place.content.element?.bind (·.setting? "src".toList)
  let run := { run with expanded := asked :: run.expanded }
  match asked with
  | none => (run.note .includeWithoutSource, place.remove)
  | some source =>
    match context.template source with
    | .error error => (run.note (.includeFailed source error), place.remove)
    | .ok template =>
      match bindArguments source place.children run template with
      | (run, none) => (run, place.remove)
      | (run, some bound) =>
        let (run, fragment) := run.read bound
        (run, if isDocument template then fragment else place.replace fragment)

/-- Expands the includes outside of loops, one after the other, as long as steps are left. -/
def expandIncludes (context : Context) : Nat → Run → Forest → Run × Forest
  | steps, run, forest =>
    match firstInclude? forest with
    | none => ({ run with budget := .remaining steps }, forest)
    | some place =>
      match steps with
      | 0 => ({ run.note (.gaveUp context.maxSteps) with budget := .spent }, forest)
      | steps + 1 =>
        let (run, forest) := resolveInclude context run place
        expandIncludes context steps run forest

/-- Resolves the includes and then the chains of conditions outside of loops. -/
def resolveTags (context : Context) (run : Run) (forest : Forest) : Run × Forest :=
  let (run, forest) := match run.budget with
    | .remaining steps => expandIncludes context steps run forest
    | .spent => (run, forest)
  let (forest, notices) := resolveChains run.model forest
  (run.noteAll notices, forest)

end MarkupTemplate
