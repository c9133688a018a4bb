import MarkupTemplate.Yaml.Data
import MarkupTemplate.Yaml.Node

namespace MarkupTemplate

/-- The value of an integer scalar. -/
def integerScalar? (text : Text) : Option Yaml :=
  (wholeNumber? text).bind fun n => if inWord n then some (.integer n) else none

/-- The value of a scalar whose tag does not stay. A tag that is none of the standard counts for
nothing if it begins with the mark of tags, and makes a text of the scalar if it does not. -/
def scalarValue? (tag : Option TagBytes) (style : ScalarStyle) (text : Text) : Option Yaml :=
  let untagged := if style = .plain then plainScalar? text else some (.text text)
  match tag with
  | none => untagged
  | some tag =>
    if tag = standardTag "bool".toList then (yamlBool? text).map .bool
    else if tag = standardTag "int".toList then integerScalar? text
    else if tag = standardTag "float".toList then (yamlFloat? text).map .float
    else if tag = standardTag "null".toList then (if isNullName text then some .null else none)
    else if hasTagMark tag then untagged
    else some (.text text)

/-- Wraps a value in a tag. -/
def withTag (tag : Option Text) (value : Yaml) : Yaml :=
  match tag with
  | some name => .tagged name value
  | none => value

/-- The depth to which collections may be inside each other. -/
def maxYamlDepth : Nat := 128

/-- Reading values, with the number of aliases that may still be followed. -/
abbrev ValueReader (α : Type) := StateT Nat Option α

namespace Node

/-- The node that a node stands for, by the nodes of the anchors. -/
def target? (anchored : List (Nat × Node)) : Node → Option Node
  | .alias number => anchored.lookup number
  | node => some node

/-- Follows an alias, of which only so many may be followed. -/
def follow (anchored : List (Nat × Node)) (node : Node) : ValueReader Node := do
  if node.isAlias then
    let left ← get
    if left = 0 then failure
    else set (left - 1)
  (node.target? anchored : Option Node)

/-- The entries that a reader of keys and one of values find after those that came before, which
are reversed. No key may come twice. -/
def entryValues (key value : Node → ValueReader Yaml) (before : List (Yaml × Yaml)) :
    List (Node × Node) → ValueReader (List (Yaml × Yaml))
  | [] => pure before.reverse
  | (first, second) :: entries => do
    let name ← key first
    let content ← value second
    if before.any fun entry => entry.1.same name then failure
    else entryValues key value ((name, content) :: before) entries

/-- The value of a node that is no alias, by a reader of the nodes in it, without which it may be no
collection. The flag tells that a tag of one's own counts for nothing: it is set for the keys of a
mapping that has such a tag itself. -/
def content (inner : Option (Bool → Node → ValueReader Yaml)) (underTag : Bool) (node : Node) :
    ValueReader Yaml :=
  let tag := if underTag then none else ownTag? node.label.tag
  let tagged := underTag || tag.isSome
  match node, inner with
  | .scalar label style text, _ => do
    let kind := if tagged then none else label.tag
    return withTag tag (← (scalarValue? kind style text : Option Yaml))
  | .sequence _ items, some read => do
    return withTag tag (.sequence (← items.mapM (read false)))
  | .mapping _ entries, some read => do
    return withTag tag (.mapping (← entryValues (read tagged) (read false) [] entries))
  | _, _ => failure

/-- The value of a node or of what it stands for, with collections up to a depth inside each
other. -/
def value (anchored : List (Nat × Node)) : Nat → Bool → Node → ValueReader Yaml
  | 0, underTag, node => do
    content none (underTag && !node.isAlias) (← node.follow anchored)
  | depth + 1, underTag, node => do
    content (some (value anchored depth)) (underTag && !node.isAlias) (← node.follow anchored)

/-- How many aliases may be followed in a document. -/
def maxJumps (root : Node) : Nat :=
  100 * root.nodes.foldl (fun count node => count + node.markCount) 0

/-- The value of the root of a document. -/
def rootValue? (root : Node) : Option Yaml :=
  (value root.anchored maxYamlDepth false root).run' root.maxJumps

end Node

/-- The value of YAML text; without a document it is null. -/
def Yaml.read? (text : Text) : Option Yaml :=
  match yamlNode? text with
  | none => none
  | some none => some .null
  | some (some node) => node.rootValue?

end MarkupTemplate
