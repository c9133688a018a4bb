import MarkupTemplate.Text.Basic

namespace MarkupTemplate

/-- The quote around the value of an attribute. -/
inductive Quote where
  | single
  | double
deriving DecidableEq, Repr

/-- A quote as a character. -/
def Quote.char : Quote → Char
  | .single => '\''
  | .double => '"'

/-- The value of an attribute as it is written. -/
inductive AttributeValue where
  | bare
  | unquoted (text : Text)
  | quoted (quote : Quote) (text : Text)
deriving DecidableEq, Repr

/-- A named attribute of an element. -/
structure Attribute where
  name : Text
  value : AttributeValue
deriving DecidableEq, Repr

namespace Attribute

/-- The text of the value; a bare attribute reads as the empty text. -/
def text (attr : Attribute) : Text :=
  match attr.value with
  | .bare => []
  | .unquoted text => text
  | .quoted _ text => text

/-- An attribute in a start tag, with the space before it. -/
def markup (attr : Attribute) : Text :=
  ' ' :: attr.name ++
    match attr.value with
    | .bare => []
    | .unquoted text => '=' :: text
    | .quoted quote text => '=' :: quote.char :: text ++ [quote.char]

end Attribute

/-- A void element has no end tag and a self-closed one ends in its start tag. -/
inductive Form where
  | normal
  | void
  | selfClosed
deriving DecidableEq, Repr

/-- An element without what is inside it. -/
structure Element where
  name : Text
  attributes : List Attribute
  form : Form
deriving DecidableEq, Repr

/-- Names of the elements that never have an end tag. -/
def voidNames : List Text :=
  ["area", "base", "br", "col", "embed", "hr", "img", "input", "link", "meta", "param", "source",
    "track", "wbr"].map String.toList

/-- Names of the elements whose content is not markup. -/
def rawTextNames : List Text :=
  ["script", "style"].map String.toList

/-- The name of a void element, in any case. -/
def isVoidName (name : Text) : Bool :=
  voidNames.contains (lowerAscii name)

/-- The name of an element whose content is not markup, in any case. -/
def isRawTextName (name : Text) : Bool :=
  rawTextNames.contains (lowerAscii name)

/-- The part of an element in a template. An `unless` tests the opposite of an `if`. -/
inductive Role where
  | head (opposite : Bool)
  | link (opposite : Bool)
  | otherwise
  | loop
  | inclusion
  | argument
  | plain
deriving DecidableEq, Repr

/-- The names that play a part. -/
def roleNames : List (Text × Role) :=
  [("if".toList, .head false), ("unless".toList, .head true), ("elseif".toList, .link false),
    ("elseunless".toList, .link true), ("else".toList, .otherwise), ("foreach".toList, .loop),
    ("include".toList, .inclusion), ("arg".toList, .argument)]

namespace Element

/-- The part of an element, by its name in any case. -/
def role (element : Element) : Role :=
  (roleNames.lookup (lowerAscii element.name)).getD .plain

/-- An element that starts a chain of conditions. -/
def isHead (element : Element) : Bool :=
  match element.role with
  | .head _ => true
  | _ => false

/-- An element that continues a chain of conditions. -/
def isLink (element : Element) : Bool :=
  match element.role with
  | .link _ => true
  | .otherwise => true
  | _ => false

/-- A loop. -/
def isLoop (element : Element) : Bool :=
  element.role == .loop

/-- A request for another template. -/
def isInclusion (element : Element) : Bool :=
  element.role == .inclusion

/-- The text of the first attribute of a name, in any case. -/
def attr? (element : Element) (name : Text) : Option Text :=
  (element.attributes.find? fun attr => sameName attr.name name).map Attribute.text

/-- The text of the first attribute of a name, unless it is empty. -/
def setting? (element : Element) (name : Text) : Option Text :=
  (element.attr? name).filter (!·.isEmpty)

/-- The start tag of an element. -/
def startTag (element : Element) : Text :=
  '<' :: element.name ++ element.attributes.flatMap Attribute.markup ++
    if element.form = .selfClosed then ['/', '>'] else ['>']

/-- The end tag of an element. -/
def endTag (element : Element) : Text :=
  '<' :: '/' :: element.name ++ ['>']

end Element

end MarkupTemplate
