import MarkupTemplate.Markup.Search
import MarkupTemplate.Render.Rendering

namespace MarkupTemplate

/-- Reads a text as an arena and notes the repairs. -/
def Run.readArena? (run : Run) (text : Text) : Option (Run × Arena) := do
  let tree ← Arena.read? text
  some (run.noteAll (tree.warnings.map .markup), { tree with warnings := [] })

namespace Arena

/-- The nodes of a chain with those from the next sibling on. So far the chain has the nodes `run`,
and `blanks` are the blank texts after them. -/
def chainFrom? (tree : Arena) : Nat → List Nat → List Nat → Option Nat → Option (List Nat)
  | _, run, _, none => some run
  | 0, _, _, some _ => none
  | turns + 1, run, blanks, some id => do
    let node ← tree.node? id
    if node.isBlank then chainFrom? tree turns run (blanks ++ [id]) (← tree.nextSibling? id)
    else if node.isElement (·.isLink) then
      if node.isElement (·.role == .otherwise) then some (run ++ blanks ++ [id])
      else chainFrom? tree turns (run ++ blanks ++ [id]) [] (← tree.nextSibling? id)
    else some run

/-- The nodes of the chain that a head starts, with the blank texts between them. -/
def chain? (tree : Arena) (head : Nat) : Option (List Nat) := do
  tree.chainFrom? tree.size [head] [] (← tree.nextSibling? head)

/-- The first node whose condition holds, and the notices of the conditions up to it. -/
def winner? (tree : Arena) (model : Model) : List Nat → Option (Option Nat × List Notice)
  | [] => some (none, [])
  | id :: rest => do
    let node ← tree.node? id
    match node.element? with
    | none => winner? tree model rest
    | some element =>
      match element.verdict model with
      | (true, notices) => some (some id, notices)
      | (false, notices) => do
        let (winner, others) ← winner? tree model rest
        some (winner, notices ++ others)

/-- Replaces a chain by the children of its first branch that holds. -/
def resolveChain? (run : Run) (tree : Arena) (head : Nat) : Option (Run × Arena) := do
  let chain ← tree.chain? head
  let (winner, notices) ← tree.winner? run.model chain
  let fragment ← match winner with
    | some id => tree.childrenFragment? id
    | none => some {}
  let tree ← tree.replaceRun? chain fragment
  some (run.noteAll notices, tree)

/-- Binds the arguments among the children of an include, in order, and notes all other children
that show. An argument without a name stops it. -/
def bindArguments? (tree : Arena) (source : Text) :
    List Nat → Run → Text → Option (Run × Option Text)
  | [], run, template => some (run, some template)
  | id :: rest, run, template => do
    let node ← tree.node? id
    match node.content with
    | some (.element element) =>
      if element.role = .argument then
        match element.attributes with
        | [] => some (run.note (.argumentWithoutName source), none)
        | attr :: _ => do
          let markup ← tree.childrenMarkup? id
          bindArguments? tree source rest run (bindArgument (lowerText attr.name) markup template)
      else do
        let markup ← tree.markup? id
        bindArguments? tree source rest (run.note (.notAnArgument markup source)) template
    | some (.text text) =>
      if isBlankText text then bindArguments? tree source rest run template
      else bindArguments? tree source rest (run.note (.textInInclude source)) template
    | _ => bindArguments? tree source rest run template

/-- Puts the template that an include asks for in its place, or in the place of all nodes if it is a
document. An include that fails is taken out. -/
def resolveInclude? (context : Context) (run : Run) (tree : Arena) (id : Nat) :
    Option (Run × Arena) := do
  let node ← tree.node? id
  let asked := node.element?.bind (·.setting? "src".toList)
  let run := { run with expanded := asked :: run.expanded }
  match asked with
  | none => some (run.note .includeWithoutSource, ← tree.detach? id)
  | some source =>
    match context.template source with
    | .error error => some (run.note (.includeFailed source error), ← tree.detach? id)
    | .ok template =>
      match ← tree.bindArguments? source node.children run template with
      | (run, none) => some (run, ← tree.detach? id)
      | (run, some bound) => do
        let (run, fragment) ← run.readArena? bound
        if isDocument template then some (run, ← tree.replaceDocument? fragment)
        else some (run, ← tree.replace? id fragment)

/-- Expands the includes that are in no waiting loop, one after the other, as long as steps are left.
Each of them is progress. -/
def expandIncludes? (context : Context) : Nat → Bool → Run → Arena → Option (Bool × Run × Arena)
  | 0, _, _, _ => none
  | turns + 1, progressed, run, tree =>
    match run.budget with
    | .spent => some (progressed, run, tree)
    | .remaining steps => do
      match ← tree.find? (tree.isOuter? (·.isInclusion)) with
      | none => some (progressed, run, tree)
      | some id =>
        match steps with
        | 0 =>
          some (progressed, { run.note (.gaveUp context.maxSteps) with budget := .spent }, tree)
        | steps + 1 => do
          let (run, tree) ← resolveInclude? context { run with budget := .remaining steps } tree id
          expandIncludes? context turns true run tree

/-- Replaces the chains that are in no waiting loop, one after the other. Each of them is
progress. -/
def resolveChains? : Nat → Bool → Run → Arena → Option (Bool × Run × Arena)
  | 0, _, _, _ => none
  | turns + 1, progressed, run, tree => do
    match ← tree.find? (tree.isOuter? (·.isHead)) with
    | none => some (progressed, run, tree)
    | some head => do
      let (run, tree) ← resolveChain? run tree head
      resolveChains? turns true run tree

/-- Resolves includes and then chains, again as long as there is progress. -/
def resolveTags? (context : Context) : Nat → Run → Arena → Option (Run × Arena)
  | 0, _, _ => none
  | turns + 1, run, tree => do
    let (expanded, run, tree) ← expandIncludes? context turns false run tree
    let (progressed, run, tree) ← resolveChains? turns expanded run tree
    if progressed then resolveTags? context turns run tree else some (run, tree)

/-- Runs the iterations for entries in order, and adds what they give to the output. `inner` resolves
the loops inside. -/
def iterate? (context : Context) (turns : Nat) (inner : Run → Arena → Option (Run × Arena))
    (loop : Loop) (body : List Piece) :
    List (Value × Value) → Run → Arena → Option (Run × Arena)
  | [], run, output => some (run, output)
  | entry :: entries, run, output => do
    let run := { run with model := loop.bind run.model entry }
    let (run, tree) ← run.readArena? (iterationText run.model body)
    let (run, tree) ← resolveTags? context turns run tree
    let (run, tree) ← inner run tree
    iterate? context turns inner loop body entries run (← output.appendFragment? tree)

/-- Puts the output of a loop in its place. A loop that cannot run is taken out. -/
def resolveLoop? (context : Context) (turns : Nat) (inner : Run → Arena → Option (Run × Arena))
    (run : Run) (tree : Arena) (id : Nat) : Option (Run × Arena) := do
  let node ← tree.node? id
  match node.element?.map (Loop.read run.model) with
  | none => some (run, ← tree.detach? id)
  | some (.error notice) => some (run.note notice, ← tree.detach? id)
  | some (.ok loop) => do
    let tree ← tree.markLooped? id
    let body ← tree.pieces? (·.isElement (·.isLoop)) id
    let (run, output) ← iterate? context turns inner loop body loop.entries run {}
    some (run, ← tree.replace? id output)

/-- Resolves the loops that are in no waiting loop, one after the other. -/
def resolveLoops? (context : Context) : Nat → Run → Arena → Option (Run × Arena)
  | 0, _, _ => none
  | turns + 1, run, tree => do
    match ← tree.find? (tree.isOuter? (·.isLoop)) with
    | none => some (run, tree)
    | some id => do
      let (run, tree) ← resolveLoop? context turns (resolveLoops? context turns) run tree id
      resolveLoops? context turns run tree

/-- Takes out the links that no chain has taken. -/
def removeLinks? : Nat → Arena → Option Arena
  | 0, _ => none
  | turns + 1, tree => do
    match ← tree.find? fun id => (tree.node? id).map (·.isElement (·.isLink)) with
    | none => some tree
    | some id => removeLinks? turns (← tree.detach? id)

end Arena

/-- Renders a compiled text in place. -/
def renderInPlace? (context : Context) (turns : Nat) (model : Model) (compiled : Text) :
    Option Rendering := do
  let (run, tree) ← (Run.start context model).readArena? compiled
  let (run, tree) ← tree.resolveTags? context turns run
  let (run, tree) ← tree.resolveLoops? context turns run
  let tree ← Arena.removeLinks? turns tree
  let markup ← tree.markup? 0
  let missing := (unresolved run.model markup).map fun path => .unresolved (placeholderText path)
  some ⟨substitute run.model markup, (run.noteAll missing).notices.reverse, run.expanded.reverse⟩

end MarkupTemplate
