import MarkupTemplate.Data.Table
import MarkupTemplate.Store.Disk

namespace MarkupTemplate

/-- Templates come from memory, from files below a root, or from a function of the caller. -/
inductive Source where
  | templates (texts : Table Text)
  | files (root : Text)
  | supplied (load : Text → Except LoadError Text)
deriving Inhabited

/-- A function is shown by its kind only. -/
instance : Repr Source where
  reprPrec source prec :=
    match source with
    | .templates texts => Repr.addAppParen ("Source.templates " ++ reprArg texts) prec
    | .files root => Repr.addAppParen ("Source.files " ++ reprArg root) prec
    | .supplied _ => "Source.supplied"

/-- The template of a name in memory. -/
def loadText (texts : Table Text) (name : Text) : Except LoadError Text :=
  match texts.find? name with
  | some text => .ok text
  | none => .error (.notFound name)

/-- A name below a root as a path. A name that begins with a slash is a path of its own. -/
def joinPath (root name : Text) : Text :=
  if name.head? = some '/' ∨ root = [] then name
  else if root.getLast? = some '/' then root ++ name
  else root ++ '/' :: name

/-- The raw text of a template. -/
def Source.load (disk : Disk) (name : Text) : Source → Except LoadError Text
  | .templates texts => loadText texts name
  | .files root =>
    match disk.read (joinPath root name) with
    | .ok text => .ok text
    | .error .missing => .error (.notFound name)
    | .error (.failure failure) => .error (.unreadable name failure)
  | .supplied load => load name

/-- A character that separates the parts of a template name. -/
def isSeparator (c : Char) : Bool :=
  c == '/' || c == '\\'

/-- The name of a template without the root in front of it. The root must end at a separator. -/
def nameBelow (root name : Text) : Text :=
  if root.isEmpty || !root.isPrefixOf name then name
  else
    let rest := name.drop root.length
    if rest.head?.any isSeparator || root.getLast?.any isSeparator then rest.dropWhile isSeparator
    else name

/-- The root is taken off with the separators behind it, if there is one at its end or behind it. -/
theorem nameBelow_append {root rest : Text} (hne : root ≠ [])
    (hs : rest.head?.any isSeparator = true ∨ root.getLast?.any isSeparator = true) :
    nameBelow root (root ++ rest) = rest.dropWhile isSeparator := by
  have hp : root.isPrefixOf (root ++ rest) = true :=
    List.isPrefixOf_iff_prefix.mpr (List.prefix_append root rest)
  simp [nameBelow, hne, hp, hs]

/-- Any other name is kept. -/
theorem nameBelow_of_forall {root name : Text}
    (h : ∀ rest, name = root ++ rest → root ≠ [] →
      rest.head?.any isSeparator = false ∧ root.getLast?.any isSeparator = false) :
    nameBelow root name = name := by
  by_cases hp : root.isPrefixOf name = true
  · obtain ⟨rest, rfl⟩ := List.isPrefixOf_iff_prefix.mp hp
    by_cases hne : root = []
    · simp [nameBelow, hne]
    · obtain ⟨behind, at_end⟩ := h rest rfl hne
      simp [nameBelow, hp, behind, at_end]
  · simp [nameBelow, hp]

end MarkupTemplate
