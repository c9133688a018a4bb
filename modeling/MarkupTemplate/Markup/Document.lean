import MarkupTemplate.Markup.Forest
import MarkupTemplate.Markup.Token

namespace MarkupTemplate

/-- A repair made while reading. -/
inductive Warning where
  | closesOthers (name : Text) (count : Nat)
  | strayEnd (name : Text)
  | leftOpen (count : Nat)
deriving DecidableEq, Repr

/-- The wording of a warning. -/
def Warning.message : Warning → Text
  | .closesOthers name count =>
    "</".toList ++ name ++ "> closes ".toList ++ natText count ++ " unclosed element(s)".toList
  | .strayEnd name => "stray end tag </".toList ++ name ++ "> ignored".toList
  | .leftOpen count => natText count ++ " element(s) left open at end of input".toList

/-- An element that is still open, and the nodes before it among its siblings, last one first. -/
structure OpenElement where
  element : Element
  before : Forest

/-- A forest that is being read: the last nodes first, the elements around them, innermost first,
and the warnings, last one first. -/
structure Builder where
  nodes : Forest := .nil
  around : List OpenElement := []
  warnings : List Warning := []

namespace Builder

/-- Adds a node without children. -/
def add (builder : Builder) (content : Content) : Builder :=
  { builder with nodes := .node content .nil builder.nodes }

/-- Notes a repair. -/
def warn (builder : Builder) (warning : Warning) : Builder :=
  { builder with warnings := warning :: builder.warnings }

/-- Opens an element, so that what follows is inside it. -/
def enter (builder : Builder) (element : Element) : Builder :=
  { builder with nodes := .nil, around := ⟨element, builder.nodes⟩ :: builder.around }

/-- The nodes after closing elements, innermost first. -/
def closeAll (nodes : Forest) (closed : List OpenElement) : Forest :=
  closed.foldl
    (fun inside level => .node (.element level.element) (inside.reverseOnto .nil) level.before)
    nodes

/-- Closes the innermost elements, as many as are told. -/
def leave (builder : Builder) (count : Nat) : Builder :=
  { builder with
    nodes := closeAll builder.nodes (builder.around.take count)
    around := builder.around.drop count }

/-- Takes a token. An end tag closes the nearest open element of its name and all inside it. -/
def step (builder : Builder) : Token → Builder
  | .text text => builder.add (.text text)
  | .comment source => builder.add (.verbatim source)
  | .declaration source => builder.add (.verbatim source)
  | .opening name attributes selfClosing =>
    if selfClosing then builder.add (.element ⟨name, attributes, .selfClosed⟩)
    else if isVoidName name then builder.add (.element ⟨name, attributes, .void⟩)
    else builder.enter ⟨name, attributes, .normal⟩
  | .closing name =>
    match builder.around.findIdx? fun level => sameName level.element.name name with
    | none => builder.warn (.strayEnd name)
    | some 0 => builder.leave 1
    | some (others + 1) => (builder.warn (.closesOthers name (others + 1))).leave (others + 2)

/-- Closes what is still open. -/
def finish (builder : Builder) : Forest × List Warning :=
  let warned :=
    if builder.around.isEmpty then builder else builder.warn (.leftOpen builder.around.length)
  ((closeAll warned.nodes warned.around).reverseOnto .nil, warned.warnings.reverse)

end Builder

/-- The forest that a text writes, and the repairs it needed, in order. -/
def readForest (text : Text) : Forest × List Warning :=
  ((tokens text).foldl Builder.step {}).finish

end MarkupTemplate
