import MarkupTemplate.Markup.Document

namespace MarkupTemplate

/-- A character of a value without quotes. -/
def inValue (c : Char) : Bool :=
  !(isTagSpace c || c == '>')

/-- A value that its own text can be told from what follows. -/
def AttributeValue.Writable : AttributeValue → Prop
  | .bare => True
  | .unquoted text =>
    text ≠ [] ∧ (∀ c ∈ text, inValue c = true) ∧
      ∀ quote : Quote, text.head? ≠ some quote.char
  | .quoted quote text => quote.char ∉ text

structure Attribute.Writable (attr : Attribute) : Prop where
  name_ne : attr.name ≠ []
  name_chars : ∀ c ∈ attr.name, inName c = true
  value : attr.value.Writable

/-- A slash after a value without quotes would belong to the value, so a tag that closes itself
must not end in one. -/
structure Element.Writable (e : Element) : Prop where
  name_starts : ∃ c, e.name.head? = some c ∧ startsName c = true
  name_chars : ∀ c ∈ e.name, inName c = true
  attributes : ∀ attr ∈ e.attributes, attr.Writable
  form : e.form ≠ .selfClosed → (e.form = .void ↔ isVoidName e.name = true)
  last : e.form = .selfClosed → ∀ attr ∈ e.attributes.getLast?, ∀ text,
    attr.value ≠ .unquoted text

/-- A comment: its first end, from the fifth character on, is at its end. -/
def IsComment (source : Text) : Prop :=
  ∃ inner, source = "<!--".toList ++ inner ++ "-->".toList ∧
    ∀ before after, inner ++ "-->".toList = before ++ "-->".toList ++ after → after = []

/-- A declaration or instruction: no comment, and its only `>` is at its end. -/
def IsDeclaration (source : Text) : Prop :=
  ∃ mark inner, (mark = '!' ∨ mark = '?') ∧ source = '<' :: mark :: inner ++ ['>'] ∧
    '>' ∉ inner ∧ ¬ "<!--".toList <+: source

/-- No end tag of the name begins in the text, in any case. -/
def LacksEndOf (name text : Text) : Prop :=
  ∀ before after, text = before ++ '<' :: '/' :: after →
    sameName (after.take name.length) name = false

namespace Forest

/-- Every node is written such that it can be read back, texts next to each other apart. -/
inductive Writable : Forest → Prop
  | nil : Writable .nil
  | text {shown : Text} {next : Forest} :
      '<' ∉ shown → next.Writable → Writable (.node (.text shown) .nil next)
  | verbatim {source : Text} {next : Forest} :
      IsComment source ∨ IsDeclaration source → next.Writable →
      Writable (.node (.verbatim source) .nil next)
  | single {e : Element} {next : Forest} :
      e.Writable → e.form ≠ .normal → next.Writable → Writable (.node (.element e) .nil next)
  | raw {e : Element} {next : Forest} :
      e.Writable → e.form = .normal → isRawTextName e.name = true → next.Writable →
      Writable (.node (.element e) .nil next)
  | rawText {e : Element} {shown : Text} {next : Forest} :
      e.Writable → e.form = .normal → isRawTextName e.name = true → LacksEndOf e.name shown →
      next.Writable → Writable (.node (.element e) (.node (.text shown) .nil .nil) next)
  | normal {e : Element} {children next : Forest} :
      e.Writable → e.form = .normal → isRawTextName e.name = false → children.Writable →
      next.Writable → Writable (.node (.element e) children next)

/-- The first node is a text. -/
def startsText : Forest → Bool
  | .node (.text _) _ _ => true
  | _ => false

/-- Texts are not empty, and no two of them are next to each other. -/
def TextsApart : Forest → Prop
  | .nil => True
  | .node (.text shown) children next =>
    shown ≠ [] ∧ next.startsText = false ∧ children.TextsApart ∧ next.TextsApart
  | .node _ children next => children.TextsApart ∧ next.TextsApart

end Forest

end MarkupTemplate
