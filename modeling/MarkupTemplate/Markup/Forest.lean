import MarkupTemplate.Markup.Element

namespace MarkupTemplate

/-- What a node of markup is, apart from its children. Comments and declarations are verbatim. -/
inductive Content where
  | text (text : Text)
  | verbatim (source : Text)
  | element (element : Element)
deriving DecidableEq, Repr

namespace Content

/-- The element that a node is. -/
def element? : Content → Option Element
  | .element e => some e
  | _ => none

/-- The node is an element with the property. -/
def isElement (property : Element → Bool) (content : Content) : Bool :=
  content.element?.any property

/-- The children of a node show in its text. -/
def showsChildren (content : Content) : Bool :=
  content.isElement (·.form == .normal)

/-- The text of a node up to its children. -/
def opening : Content → Text
  | .text shown => shown
  | .verbatim source => source
  | .element e => e.startTag

/-- The text of a node after its children. -/
def closing : Content → Text
  | .element e => e.endTag
  | _ => []

end Content

/-- A forest is empty, or has a first node with its children and the nodes next to it. -/
inductive Forest where
  | nil
  | node (content : Content) (children next : Forest)
deriving DecidableEq, Repr, Inhabited

namespace Forest

/-- The number of nodes at all depths. -/
def size : Forest → Nat
  | .nil => 0
  | .node _ children next => children.size + next.size + 1

/-- The nodes of the first forest before those of the second. -/
def append : Forest → Forest → Forest
  | .nil, after => after
  | .node content children next, after => .node content children (next.append after)

instance : Append Forest := ⟨append⟩

@[simp] theorem nil_append (after : Forest) : Forest.nil ++ after = after := rfl

@[simp] theorem node_append (content : Content) (children next after : Forest) :
    Forest.node content children next ++ after = .node content children (next ++ after) := rfl

@[simp] theorem append_nil (forest : Forest) : forest ++ Forest.nil = forest := by
  induction forest with
  | nil => rfl
  | node content children next _ ih => simp [ih]

theorem append_assoc (a b c : Forest) : a ++ b ++ c = a ++ (b ++ c) := by
  induction a with
  | nil => rfl
  | node content children next _ ih => simp [ih]

@[simp] theorem size_append (a b : Forest) : (a ++ b).size = a.size + b.size := by
  induction a with
  | nil => simp [size]
  | node content children next _ ih =>
    simp only [node_append, size, ih]
    omega

/-- The nodes of the first forest in reverse order before those of the second; their children stay
in order. -/
def reverseOnto : Forest → Forest → Forest
  | .nil, after => after
  | .node content children next, after => next.reverseOnto (.node content children after)

/-- The text of a forest with a text after it. -/
def markupBefore : Forest → Text → Text
  | .nil, after => after
  | .node content children next, after =>
    content.opening ++
      if content.showsChildren then
        children.markupBefore (content.closing ++ next.markupBefore after)
      else next.markupBefore after

/-- The text of a forest. -/
def markup (forest : Forest) : Text :=
  forest.markupBefore []

theorem markupBefore_eq (forest : Forest) (after : Text) :
    forest.markupBefore after = forest.markup ++ after := by
  unfold markup
  induction forest generalizing after with
  | nil => rfl
  | node content children next ihc ihn =>
    simp only [markupBefore]
    split
    next =>
      rw [ihc, ihn, ihc (_ ++ _)]
      simp [List.append_assoc]
    next => rw [ihn]; simp [List.append_assoc]

@[simp] theorem markup_nil : Forest.nil.markup = [] := rfl

/-- A node is written as its opening, its children if they show, and its closing. -/
theorem markup_node (content : Content) (children next : Forest) :
    (Forest.node content children next).markup =
      content.opening ++
        (if content.showsChildren then children.markup ++ content.closing else []) ++
          next.markup := by
  rw [markup, markupBefore]
  split <;> simp [markupBefore_eq, List.append_assoc]

@[simp] theorem markup_append (a b : Forest) : (a ++ b).markup = a.markup ++ b.markup := by
  induction a with
  | nil => rfl
  | node content children next _ ih => simp [markup_node, ih, List.append_assoc]

end Forest

/-- A part of the text of a forest: plain markup, or the text of a node that was kept apart. -/
inductive Piece where
  | markup (text : Text)
  | kept (text : Text)
deriving DecidableEq, Repr

/-- The text of a piece. -/
def Piece.text : Piece → Text
  | .markup text => text
  | .kept text => text

/-- Puts markup before pieces, joined with markup that comes first. -/
def Piece.consMarkup (text : Text) : List Piece → List Piece
  | .markup next :: pieces => .markup (text ++ next) :: pieces
  | pieces => .markup text :: pieces

/-- The pieces of a forest, with pieces after them. -/
def Forest.piecesBefore (keep : Content → Forest → Bool) : Forest → List Piece → List Piece
  | .nil, after => after
  | .node content children next, after =>
    let rest := next.piecesBefore keep after
    if keep content children then .kept (Forest.node content children .nil).markup :: rest
    else Piece.consMarkup content.opening <|
      if content.showsChildren then
        children.piecesBefore keep (Piece.consMarkup content.closing rest)
      else rest

/-- The text of a forest in pieces: the outermost nodes to keep, each apart, and the markup between
them. -/
def Forest.pieces (keep : Content → Forest → Bool) (forest : Forest) : List Piece :=
  forest.piecesBefore keep []

end MarkupTemplate
