import MarkupTemplate.Yaml.Token

namespace MarkupTemplate

/-- What a node has in front of it: the number of its anchor, and its full tag. -/
structure NodeLabel where
  anchor : Option Nat := none
  tag : Option TagBytes := none
deriving DecidableEq, Repr, Inhabited

/-- A node of a YAML document. An alias stands for the node whose anchor has its number. -/
inductive Node where
  | scalar (label : NodeLabel) (style : ScalarStyle) (text : Text)
  | sequence (label : NodeLabel) (items : List Node)
  | mapping (label : NodeLabel) (entries : List (Node × Node))
  | alias (number : Nat)
deriving Repr, Inhabited

namespace Node

/-- A scalar of which nothing is written. -/
def empty : Node :=
  .scalar {} .plain []

/-- What is in front of a node. -/
def label : Node → NodeLabel
  | .scalar label _ _ => label
  | .sequence label _ => label
  | .mapping label _ => label
  | .alias _ => {}

/-- A node that stands for another one. -/
def isAlias : Node → Bool
  | .alias _ => true
  | _ => false

mutual

/-- A node and the nodes in it, in the order in which they begin. -/
def nodes : Node → List Node
  | .sequence label items => .sequence label items :: itemNodes items
  | .mapping label entries => .mapping label entries :: entryNodes entries
  | node => [node]

/-- The nodes of items. -/
def itemNodes : List Node → List Node
  | [] => []
  | item :: items => item.nodes ++ itemNodes items

/-- The nodes of entries. -/
def entryNodes : List (Node × Node) → List Node
  | [] => []
  | (key, value) :: entries => key.nodes ++ (value.nodes ++ entryNodes entries)

end

/-- The number of marks that a node takes for itself: a collection has a start and an end. -/
def markCount : Node → Nat
  | .sequence _ _ => 2
  | .mapping _ _ => 2
  | _ => 1

/-- The nodes that anchors stand for, by the numbers of the anchors. The last one with a number
comes first. -/
def anchored (root : Node) : List (Nat × Node) :=
  (root.nodes.filterMap fun node => node.label.anchor.map (·, node)).reverse

end Node

/-- The tokens that are still to be read, the numbers of anchors, and the handles of tags. -/
structure NodeReader where
  tokens : List YamlToken
  anchors : Table Nat := []
  handles : Table TagBytes := []

/-- What a node carries in front of it. -/
structure Properties where
  anchor : Option Text := none
  tag : Option TagWord := none

namespace NodeReader

/-- The reader after the next token. -/
def skip (r : NodeReader) : NodeReader :=
  { r with tokens := r.tokens.drop 1 }

/-- The next token is one of those, or there is none. -/
def stops (r : NodeReader) (tokens : List YamlToken) : Bool :=
  match r.tokens with
  | [] => true
  | token :: _ => tokens.contains token

/-- An anchor and a tag in front of a node, in either order. -/
def properties (r : NodeReader) : Properties × NodeReader :=
  match r.tokens with
  | .anchor name :: .tag word :: _ => (⟨some name, some word⟩, r.skip.skip)
  | .tag word :: .anchor name :: _ => (⟨some name, some word⟩, r.skip.skip)
  | .anchor name :: _ => (⟨some name, none⟩, r.skip)
  | .tag word :: _ => (⟨none, some word⟩, r.skip)
  | _ => ({}, r)

/-- The full tag of a node, if it has one. A handle must be known. -/
def fullTag? (r : NodeReader) : Option TagWord → Option (Option TagBytes)
  | none => some none
  | some word =>
    if word.handle.isEmpty then some (some word.suffix)
    else match r.handles.find? word.handle with
      | some text => some (some (text ++ word.suffix))
      | none =>
        if word.handle = ['!'] then some (some (encodedBytes ['!'] ++ word.suffix))
        else if word.handle = ['!', '!'] then some (some (standardTag [] ++ word.suffix))
        else none

/-- What is in front of a node. An anchor has as its number how many names there were before. -/
def label? (r : NodeReader) : Option (NodeLabel × NodeReader) := do
  let (properties, r) := r.properties
  let tag ← r.fullTag? properties.tag
  match properties.anchor with
  | some name =>
    let number := r.anchors.length
    some ({ anchor := some number, tag }, { r with anchors := r.anchors.insert name number })
  | none => some ({ tag }, r)

mutual

/-- A node. In a block a collection may be written by its indentation, and as the value of a key a
sequence may have the indent of the key. -/
def node? (inBlock underKey : Bool) : Nat → NodeReader → Option (Node × NodeReader)
  | 0, _ => none
  | fuel + 1, r => do
    match r.tokens with
    | .alias name :: _ => (r.anchors.find? name).map fun number => (.alias number, r.skip)
    | _ =>
      let (label, r) ← r.label?
      let bare : Option (Node × NodeReader) :=
        if label = {} then none else some (.scalar label .plain [], r)
      match r.tokens with
      | .scalar style text :: _ => some (.scalar label style text, r.skip)
      | .sequenceOpen :: _ =>
        let (items, r) ← flowItems? true fuel r.skip
        some (.sequence label items, r)
      | .mappingOpen :: _ =>
        let (entries, r) ← flowEntries? true fuel r.skip
        some (.mapping label entries, r)
      | token :: _ =>
        if token = .item ∧ underKey then
          let (items, r) ← looseItems? fuel r
          some (.sequence label items, r)
        else if token = .blockSequence ∧ inBlock then
          let (items, r) ← blockItems? fuel r.skip
          some (.sequence label items, r)
        else if token = .blockMapping ∧ inBlock then
          let (entries, r) ← blockEntries? fuel r.skip
          some (.mapping label entries, r)
        else bare
      | [] => bare

/-- A node unless one of some tokens comes first. -/
def nodeUnless? (stops : List YamlToken) (inBlock underKey : Bool) :
    Nat → NodeReader → Option (Node × NodeReader)
  | 0, _ => none
  | fuel + 1, r => if r.stops stops then some (.empty, r) else node? inBlock underKey fuel r

/-- The items of a block sequence up to its end. -/
def blockItems? : Nat → NodeReader → Option (List Node × NodeReader)
  | 0, _ => none
  | fuel + 1, r =>
    match r.tokens with
    | .item :: _ => do
      let (item, r) ← nodeUnless? [.item, .blockEnd] true false fuel r.skip
      let (items, r) ← blockItems? fuel r
      some (item :: items, r)
    | .blockEnd :: _ => some ([], r.skip)
    | _ => none

/-- The items of a sequence without a block of its own. -/
def looseItems? : Nat → NodeReader → Option (List Node × NodeReader)
  | 0, _ => none
  | fuel + 1, r =>
    match r.tokens with
    | .item :: _ => do
      let (item, r) ← nodeUnless? [.item, .key, .value, .blockEnd] true false fuel r.skip
      let (items, r) ← looseItems? fuel r
      some (item :: items, r)
    | _ => some ([], r)

/-- The value of a key in a block, which may be missing. -/
def blockValue? : Nat → NodeReader → Option (Node × NodeReader)
  | 0, _ => none
  | fuel + 1, r =>
    match r.tokens with
    | .value :: _ => nodeUnless? [.key, .value, .blockEnd] true true fuel r.skip
    | _ => some (.empty, r)

/-- The entries of a block mapping up to its end. -/
def blockEntries? : Nat → NodeReader → Option (List (Node × Node) × NodeReader)
  | 0, _ => none
  | fuel + 1, r =>
    match r.tokens with
    | .key :: _ => do
      let (key, r) ← nodeUnless? [.key, .value, .blockEnd] true true fuel r.skip
      let (value, r) ← blockValue? fuel r
      let (entries, r) ← blockEntries? fuel r
      some ((key, value) :: entries, r)
    | .blockEnd :: _ => some ([], r.skip)
    | _ => none

/-- The value of a key between brackets, which may be missing. -/
def flowValue? (close : YamlToken) : Nat → NodeReader → Option (Node × NodeReader)
  | 0, _ => none
  | fuel + 1, r =>
    match r.tokens with
    | .value :: _ => nodeUnless? [.comma, close] false false fuel r.skip
    | _ => some (.empty, r)

/-- The items of a flow sequence up to its end. A key among them is a mapping of one entry; the mark
that follows an empty key is passed with it. -/
def flowItems? (first : Bool) : Nat → NodeReader → Option (List Node × NodeReader)
  | 0, _ => none
  | fuel + 1, r =>
    match r.tokens with
    | .sequenceClose :: _ => some ([], r.skip)
    | _ => do
      let r ← if first then some r else if r.tokens.head? = some .comma then some r.skip else none
      match r.tokens with
      | .sequenceClose :: _ => some ([], r.skip)
      | .key :: _ =>
        let r := r.skip
        let (key, r) ←
          if r.stops [.value, .comma, .sequenceClose] then some (.empty, r.skip)
          else node? false false fuel r
        let (value, r) ← flowValue? .sequenceClose fuel r
        let (items, r) ← flowItems? false fuel r
        some (.mapping {} [(key, value)] :: items, r)
      | _ =>
        let (item, r) ← node? false false fuel r
        let (items, r) ← flowItems? false fuel r
        some (item :: items, r)

/-- The entries of a flow mapping up to its end. -/
def flowEntries? (first : Bool) : Nat → NodeReader → Option (List (Node × Node) × NodeReader)
  | 0, _ => none
  | fuel + 1, r =>
    match r.tokens with
    | .mappingClose :: _ => some ([], r.skip)
    | _ => do
      let r ← if first then some r else if r.tokens.head? = some .comma then some r.skip else none
      match r.tokens with
      | .mappingClose :: _ => some ([], r.skip)
      | .key :: _ =>
        let (key, r) ← nodeUnless? [.value, .comma, .mappingClose] false false fuel r.skip
        let (value, r) ← flowValue? .mappingClose fuel r
        let (entries, r) ← flowEntries? false fuel r
        some ((key, value) :: entries, r)
      | _ =>
        let (key, r) ← node? false false fuel r
        let (entries, r) ← flowEntries? false fuel r
        some ((key, .empty) :: entries, r)

end

/-- The directives in front of a document: at most one version, and each handle once. -/
def directives? (versioned : Bool) (handles : Table TagBytes) :
    List YamlToken → Option (NodeReader)
  | .version :: tokens => if versioned then none else directives? true handles tokens
  | .tagHandle handle tagPrefix :: tokens =>
    if (handles.find? handle).isSome then none
    else directives? versioned (handles ++ [(handle, tagPrefix)]) tokens
  | tokens => some { tokens, handles }

/-- The node of the only document, if there is a document. -/
def document? (tokens : List YamlToken) : Option (Option Node) := do
  let fuel := 4 * tokens.length + 8
  let (node, r) ← match tokens with
    | [] => some (none, { tokens })
    | token :: _ => do
      let start ← directives? false [] tokens
      match start.tokens with
      | .documentStart :: rest =>
        let empty := rest.isEmpty || rest.head? == some .documentStart ||
          rest.head? == some .documentEnd
        if empty then some (some Node.empty, start.skip)
        else (node? true false fuel start.skip).map fun (node, r) => (some node, r)
      | _ =>
        if start.tokens.length < tokens.length || token == .documentEnd then none
        else (node? true false fuel start).map fun (node, r) => (some node, r)
  if (r.tokens.dropWhile (· == .documentEnd)).isEmpty then some node else none

end NodeReader

/-- The node of YAML text with at most one document. -/
def yamlNode? (text : Text) : Option (Option Node) :=
  (yamlTokens? text).bind NodeReader.document?

end MarkupTemplate
