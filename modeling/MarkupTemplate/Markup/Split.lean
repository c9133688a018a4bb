import MarkupTemplate.Markup.Search

namespace MarkupTemplate

/-- Puts markup after pieces, joined with markup that comes last. -/
def Piece.pushMarkup (pieces : List Piece) (text : Text) : List Piece :=
  match pieces.getLast? with
  | some (.markup last) => pieces.dropLast ++ [.markup (last ++ text)]
  | _ => pieces ++ [.markup text]

namespace Arena

/-- Puts a node after pieces. A node to keep is a piece of its own, and of an element that shows its
children the tags are markup around them. -/
def splitNode? (tree : Arena) (keep : Nat → Bool) : Nat → List Piece → Nat → Option (List Piece)
  | 0, _, _ => none
  | depth + 1, pieces, id => do
    if keep id then some (pieces ++ [.kept (← tree.markup? id)])
    else
      let node ← tree.node? id
      match node.content.filter Content.showsChildren with
      | some content => do
        let inside ← node.children.foldlM (splitNode? tree keep depth)
          (Piece.pushMarkup pieces content.opening)
        some (Piece.pushMarkup inside content.closing)
      | none => some (Piece.pushMarkup pieces (← tree.markup? id))

/-- The text of what is below a node in pieces, where any nodes can be the ones to keep. -/
def splitChildren? (tree : Arena) (keep : Nat → Bool) (id : Nat) : Option (List Piece) := do
  let node ← tree.node? id
  node.children.foldlM (tree.splitNode? keep tree.size) []

end Arena

end MarkupTemplate
