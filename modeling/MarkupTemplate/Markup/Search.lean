import MarkupTemplate.Markup.Arena

namespace MarkupTemplate

namespace ArenaNode

/-- The element that a node is. -/
def element? (node : ArenaNode) : Option Element :=
  node.content.bind Content.element?

/-- The node is an element with the property. -/
def isElement (property : Element → Bool) (node : ArenaNode) : Bool :=
  node.element?.any property

/-- The node is blank text. -/
def isBlank (node : ArenaNode) : Bool :=
  match node.content with
  | some (.text text) => isBlankText text
  | _ => false

/-- The node is a loop that is not marked. -/
def isWaitingLoop (node : ArenaNode) : Bool :=
  node.isElement (·.isLoop) && !node.looped

end ArenaNode

namespace Arena

/-- The node after a node among the children of its parent. -/
def nextSibling? (tree : Arena) (id : Nat) : Option (Option Nat) := do
  match ← tree.indexInParent? id with
  | none => some none
  | some (parent, index) => do
    let owner ← tree.node? parent
    some owner.children[index + 1]?

/-- The first node with the property from a node down, a node before its children. -/
def findBelow? (tree : Arena) (property : Nat → Option Bool) : Nat → Nat → Option (Option Nat)
  | 0, _ => none
  | depth + 1, id => do
    if ← property id then some (some id)
    else
      let node ← tree.node? id
      node.children.findSomeM? (findBelow? tree property depth)

/-- The first node with the property in the order of the text. -/
def find? (tree : Arena) (property : Nat → Option Bool) : Option (Option Nat) :=
  tree.findBelow? property tree.size 0

/-- One of the nodes above a node, up to a height, is a loop that is not marked. -/
def loopAbove? (tree : Arena) : Nat → Nat → Option Bool
  | 0, _ => none
  | height + 1, id => do
    let node ← tree.node? id
    match node.parent with
    | none => some false
    | some parent => do
      let owner ← tree.node? parent
      if owner.isWaitingLoop then some true else loopAbove? tree height parent

/-- The node is an element with the property, and is in no loop that is not marked. -/
def isOuter? (tree : Arena) (property : Element → Bool) (id : Nat) : Option Bool := do
  let node ← tree.node? id
  if node.isElement property then some (!(← tree.loopAbove? tree.size id)) else some false

/-- The text of a node with all below it. -/
def markupBelow? (tree : Arena) : Nat → Nat → Option Text
  | 0, _ => none
  | depth + 1, id => do
    let node ← tree.node? id
    let inside := do return (← node.children.mapM (markupBelow? tree depth)).flatten
    match node.content with
    | none => inside
    | some content =>
      if content.showsChildren then some (content.opening ++ (← inside) ++ content.closing)
      else some content.opening

/-- The text of a node with all below it. -/
def markup? (tree : Arena) (id : Nat) : Option Text :=
  tree.markupBelow? tree.size id

/-- The text of what is below a node. -/
def childrenMarkup? (tree : Arena) (id : Nat) : Option Text := do
  let node ← tree.node? id
  return (← node.children.mapM tree.markup?).flatten

/-- The text of a node in pieces, with pieces after them. The outermost nodes to keep stand
apart. -/
def piecesBefore? (tree : Arena) (keep : ArenaNode → Bool) :
    Nat → Nat → List Piece → Option (List Piece)
  | 0, _, _ => none
  | depth + 1, id, after => do
    let node ← tree.node? id
    if keep node then some (.kept (← tree.markup? id) :: after)
    else
      match node.content with
      | none => some (Piece.consMarkup (← tree.markup? id) after)
      | some content =>
        if content.showsChildren then
          let inside ← node.children.foldrM (piecesBefore? tree keep depth)
            (Piece.consMarkup content.closing after)
          some (Piece.consMarkup content.opening inside)
        else some (Piece.consMarkup content.opening after)

/-- The text of what is below a node in pieces. -/
def pieces? (tree : Arena) (keep : ArenaNode → Bool) (id : Nat) : Option (List Piece) := do
  let node ← tree.node? id
  node.children.foldrM (tree.piecesBefore? keep tree.size) []

end Arena

end MarkupTemplate
