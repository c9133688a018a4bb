import MarkupTemplate.Markup.Forest

namespace MarkupTemplate

/-- A step on the way to a place: past a node, or into one. -/
inductive Frame where
  | past (content : Content) (children : Forest)
  | into (content : Content) (next : Forest)
deriving DecidableEq, Repr

/-- The forest that a frame surrounds. -/
def Frame.plug (inside : Forest) : Frame → Forest
  | .past content children => .node content children inside
  | .into content next => .node content inside next

/-- The forest with `inside` at the end of a way, whose last step comes first. -/
def plug (inside : Forest) (way : List Frame) : Forest :=
  way.foldl Frame.plug inside

/-- A node of a forest and the way to it, the last step first. -/
structure Place where
  way : List Frame
  content : Content
  children : Forest
  next : Forest
deriving DecidableEq, Repr

namespace Place

/-- The whole forest. -/
def whole (place : Place) : Forest :=
  plug (.node place.content place.children place.next) place.way

/-- The forest with the node replaced. -/
def replace (place : Place) (fragment : Forest) : Forest :=
  plug (fragment ++ place.next) place.way

/-- The forest without the node. -/
def remove (place : Place) : Forest :=
  place.replace .nil

/-- The nodes around a place, innermost first. -/
def ancestors (place : Place) : List Content :=
  place.way.filterMap fun
    | .into content _ => some content
    | .past _ _ => none

end Place

/-- The first place with the property in document order, a node before its children. -/
def Forest.findFrom? (property : Place → Bool) (way : List Frame) : Forest → Option Place
  | .nil => none
  | .node content children next =>
    if property ⟨way, content, children, next⟩ then some ⟨way, content, children, next⟩
    else
      match children.findFrom? property (.into content next :: way) with
      | some place => some place
      | none => next.findFrom? property (.past content children :: way)

/-- The first place with the property in document order. -/
def Forest.find? (property : Place → Bool) (forest : Forest) : Option Place :=
  forest.findFrom? property []

theorem Forest.whole_of_findFrom? {property : Place → Bool} {way : List Frame} {forest : Forest}
    {place : Place} (h : forest.findFrom? property way = some place) :
    place.whole = plug forest way ∧ property place = true := by
  induction forest generalizing way with
  | nil => simp [findFrom?] at h
  | node content children next ihc ihn =>
    rw [findFrom?] at h
    split at h
    next hp =>
      cases h
      exact ⟨rfl, hp⟩
    next =>
      split at h
      next hc =>
        cases h
        exact ihc hc
      next => exact ihn h

/-- A place that was found is a place of the forest, and has the property. -/
theorem Forest.whole_of_find? {property : Place → Bool} {forest : Forest} {place : Place}
    (h : forest.find? property = some place) : place.whole = forest ∧ property place = true :=
  whole_of_findFrom? h

end MarkupTemplate
