import MarkupTemplate.Markup.Search

namespace MarkupTemplate

namespace Arena

/-- Takes nodes from a stack up to the first one with the property, a turn for each. The children of
a node are put on the stack from the last one to the first. -/
def searchFrom? (tree : Arena) (property : Nat → Option Bool) :
    Nat → Array Nat → Option (Option Nat)
  | turns, pending =>
    match pending.back? with
    | none => some none
    | some id =>
      match turns with
      | 0 => none
      | turns + 1 => do
        if ← property id then some (some id)
        else
          let node ← tree.node? id
          searchFrom? tree property turns (pending.pop ++ node.children.reverse)

/-- The first node with the property, if no more turns are needed than there may be. -/
def search? (tree : Arena) (turns : Nat) (property : Nat → Option Bool) : Option (Option Nat) :=
  tree.searchFrom? property turns #[0]

end Arena

end MarkupTemplate
