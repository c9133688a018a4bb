import MarkupTemplate.Markup.Document

namespace MarkupTemplate

/-- A node of an arena. The document is the one that has no content. A loop can be marked. -/
structure ArenaNode where
  content : Option Content
  looped : Bool := false
  parent : Option Nat := none
  children : List Nat := []
deriving DecidableEq, Repr

/-- Numbered nodes, the document first, and the repairs that reading them needed. -/
structure Arena where
  nodes : Array ArenaNode := #[{ content := none }]
  warnings : List Warning := []
deriving DecidableEq, Repr

namespace Arena

/-- The number that the next node gets. -/
def size (tree : Arena) : Nat :=
  tree.nodes.size

/-- The node of a number. -/
def node? (tree : Arena) (id : Nat) : Option ArenaNode :=
  tree.nodes[id]?

/-- Adds a node. -/
def push (tree : Arena) (node : ArenaNode) : Arena :=
  { tree with nodes := tree.nodes.push node }

/-- Changes a node. -/
def update? (tree : Arena) (id : Nat) (change : ArenaNode → ArenaNode) : Option Arena :=
  if id < tree.size then some { tree with nodes := tree.nodes.modify id change } else none

/-- Changes the children that a node names. -/
def updateChildren? (tree : Arena) (id : Nat) (change : List Nat → List Nat) : Option Arena :=
  tree.update? id fun node => { node with children := change node.children }

/-- Lets a node name no parent. -/
def orphan? (tree : Arena) (id : Nat) : Option Arena :=
  tree.update? id fun node => { node with parent := none }

/-- Adds a node without children as the last child of another. -/
def append? (tree : Arena) (parent : Nat) (content : Content) : Option Arena :=
  (tree.push { content := some content, parent := some parent }).updateChildren? parent
    (· ++ [tree.size])

/-- The parent of a node and the place of the node among its children. -/
def indexInParent? (tree : Arena) (id : Nat) : Option (Option (Nat × Nat)) := do
  let node ← tree.node? id
  match node.parent with
  | none => some none
  | some parent => do
    let owner ← tree.node? parent
    some ((owner.children.idxOf? id).map (parent, ·))

/-- Marks a loop. -/
def markLooped? (tree : Arena) (id : Nat) : Option Arena :=
  tree.update? id fun node =>
    { node with looped := node.looped || (node.content.any fun c => c.element?.isSome) }

/-- Takes out a node. -/
def detach? (tree : Arena) (id : Nat) : Option Arena := do
  let tree ← match ← tree.indexInParent? id with
    | some (parent, index) => tree.updateChildren? parent (·.eraseIdx index)
    | none => some tree
  tree.orphan? id

/-- Copies a node with all below it from another arena, under a parent that does not name it yet. No
way down is longer than `depth`, or else it goes in a circle. -/
def graft? (source : Arena) : Nat → Nat → Nat → Arena → Option (Nat × Arena)
  | 0, _, _, _ => none
  | depth + 1, origin, parent, tree => do
    let node ← source.node? origin
    let id := tree.size
    let tree ← node.children.foldlM (fun tree child => do
      let (grafted, tree) ← graft? source depth child id tree
      tree.updateChildren? id (· ++ [grafted]))
      (tree.push { node with parent := some parent, children := [] })
    some (id, tree)

/-- Copies nodes from another arena as the last children of a node. -/
def adopt? (source : Arena) (depth parent : Nat) (children : List Nat) (tree : Arena) :
    Option Arena :=
  children.foldlM (fun tree child => do
    let (grafted, tree) ← graft? source depth child parent tree
    tree.updateChildren? parent (· ++ [grafted])) tree

/-- Copies nodes from another arena under a parent that does not name them yet. -/
def graftAll? (source : Arena) (depth parent : Nat) : List Nat → Arena → Option (List Nat × Arena)
  | [], tree => some ([], tree)
  | child :: rest, tree => do
    let (grafted, tree) ← graft? source depth child parent tree
    let (others, tree) ← graftAll? source depth parent rest tree
    some (grafted :: others, tree)

/-- Copies the nodes below the document of a fragment, under a parent that does not name them
yet. -/
def graftTop? (fragment : Arena) (parent : Nat) (tree : Arena) : Option (List Nat × Arena) := do
  let document ← fragment.node? 0
  graftAll? fragment fragment.size parent document.children tree

/-- Puts children among those of a node. -/
def splice? (tree : Arena) (parent index : Nat) (children : List Nat) : Option Arena := do
  let owner ← tree.node? parent
  if index ≤ owner.children.length then
    tree.updateChildren? parent fun others => others.take index ++ children ++ others.drop index
  else none

/-- Takes out nodes, and puts a fragment where the first of them was. -/
def replaceRun? (tree : Arena) (run : List Nat) (fragment : Arena) : Option Arena :=
  match run with
  | [] => some tree
  | first :: _ => do
    match ← tree.indexInParent? first with
    | none => some tree
    | some (parent, index) => do
      let tree ← run.foldlM detach? tree
      let (grafted, tree) ← graftTop? fragment parent tree
      tree.splice? parent index grafted

/-- Puts a fragment in the place of a node. -/
def replace? (tree : Arena) (id : Nat) (fragment : Arena) : Option Arena :=
  tree.replaceRun? [id] fragment

/-- Puts a fragment in the place of all nodes. -/
def replaceDocument? (tree : Arena) (fragment : Arena) : Option Arena := do
  let document ← tree.node? 0
  let tree ← tree.updateChildren? 0 fun _ => []
  let tree ← document.children.foldlM orphan? tree
  let (grafted, tree) ← graftTop? fragment 0 tree
  tree.updateChildren? 0 fun _ => grafted

/-- The nodes below a node as an arena of their own. -/
def childrenFragment? (tree : Arena) (id : Nat) : Option Arena := do
  let node ← tree.node? id
  adopt? tree tree.size 0 node.children {}

/-- Adds a fragment after all nodes. -/
def appendFragment? (tree : Arena) (fragment : Arena) : Option Arena := do
  let document ← fragment.node? 0
  adopt? fragment fragment.size 0 document.children tree

/-- Notes a repair. -/
def warn (tree : Arena) (warning : Warning) : Arena :=
  { tree with warnings := tree.warnings ++ [warning] }

/-- The node is an element of the name, in any case. -/
def isTag (tree : Arena) (name : Text) (id : Nat) : Bool :=
  (tree.node? id).any fun node =>
    node.content.any (·.isElement fun element => sameName element.name name)

/-- An arena that is being read, and the elements that are open, innermost first. -/
structure Unfinished where
  tree : Arena := {}
  opened : List Nat := []

namespace Unfinished

/-- The node that takes the next ones: the innermost open element, or the document. -/
def current (unfinished : Unfinished) : Nat :=
  unfinished.opened.head?.getD 0

/-- Adds a node that stays without children. -/
def add? (unfinished : Unfinished) (content : Content) : Option Unfinished :=
  (unfinished.tree.append? unfinished.current content).map fun tree => { unfinished with tree }

/-- Takes a token. An end tag closes the nearest open element of its name and all inside it. -/
def step? (unfinished : Unfinished) : Token → Option Unfinished
  | .text shown => unfinished.add? (.text shown)
  | .comment source => unfinished.add? (.verbatim source)
  | .declaration source => unfinished.add? (.verbatim source)
  | .opening name attributes selfClosing =>
    let form : Form :=
      if selfClosing then .selfClosed else if isVoidName name then .void else .normal
    let id := unfinished.tree.size
    (unfinished.add? (.element ⟨name, attributes, form⟩)).map fun added =>
      if form = .normal then { added with opened := id :: added.opened } else added
  | .closing name =>
    match unfinished.opened.findIdx? (unfinished.tree.isTag name) with
    | none => some { unfinished with tree := unfinished.tree.warn (.strayEnd name) }
    | some others =>
      some
        { tree :=
            if 0 < others then unfinished.tree.warn (.closesOthers name others)
            else unfinished.tree
          opened := unfinished.opened.drop (others + 1) }

/-- The arena, where what is still open is closed. -/
def finish (unfinished : Unfinished) : Arena :=
  if unfinished.opened.isEmpty then unfinished.tree
  else unfinished.tree.warn (.leftOpen unfinished.opened.length)

end Unfinished

/-- The arena of a text. -/
def read? (text : Text) : Option Arena :=
  ((tokens text).foldlM Unfinished.step? {}).map Unfinished.finish

end Arena

end MarkupTemplate
