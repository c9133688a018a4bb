import MarkupTemplate.Data.Value

namespace MarkupTemplate

/-- A step of a path: a name or a number in brackets. -/
inductive Segment where
  | key (name : Text)
  | index (position : Nat)
deriving DecidableEq, Repr

/-- A path begins with a name. -/
structure Path where
  head : Text
  segments : List Segment
deriving DecidableEq, Repr

/-- Characters of which no name in a path is made, unless it is quoted. -/
def isPathDelimiter (c : Char) : Bool :=
  c == '.' || c == '[' || c == ']' || c == '"' || c == '\'' || isBlank c

/-- What stands between brackets: a name in quotes or a number. -/
def bracketSegment? (inner : Text) : Option Segment :=
  match inner, inner.getLast? with
  | '"' :: rest@(_ :: _), some '"' => some (.key rest.dropLast)
  | '\'' :: rest@(_ :: _), some '\'' => some (.key rest.dropLast)
  | _, _ => (index? inner).map .index

/-- The name at the start of a text, which may be empty, and what follows it. -/
def spanKey (text : Text) : Text × Text :=
  (text.takeWhile (!isPathDelimiter ·), text.dropWhile (!isPathDelimiter ·))

theorem length_spanKey_le (text : Text) : (spanKey text).2.length ≤ text.length :=
  (List.dropWhile_sublist _).length_le

/-- The steps after the head of a path. -/
def readSegments? : Text → Option (List Segment)
  | [] => some []
  | '.' :: rest =>
    have : (spanKey rest).2.length ≤ rest.length := length_spanKey_le rest
    if (spanKey rest).1.isEmpty then none
    else (readSegments? (spanKey rest).2).map (.key (spanKey rest).1 :: ·)
  | '[' :: rest =>
    match h : cut? [']'] rest with
    | none => none
    | some (inner, after) =>
      have : after.length < rest.length + 1 := by
        have := length_of_cut? h
        omega
      match bracketSegment? inner with
      | none => none
      | some segment => (readSegments? after).map (segment :: ·)
  | _ => none
termination_by text => text.length
decreasing_by
  · exact Nat.lt_succ_of_le this
  · exact this

/-- Reads a path; a malformed text is none. -/
def Path.read? (text : Text) : Option Path :=
  let head := spanKey text
  if head.1.isEmpty then none else (readSegments? head.2).map (⟨head.1, ·⟩)

/-- The field whose name agrees with `name` in lower case. A name that is in lower case itself
comes before the others. -/
def fieldNamed? (name : Text) (fields : List (Text × Value)) : Option Value :=
  let lowered := lowerText name
  match Table.find? lowered fields with
  | some value => some value
  | none => (fields.find? fun field => lowerText field.1 == lowered).map Prod.snd

/-- The part of a value that a step leads to. -/
def Value.follow? : Value → Segment → Option Value
  | .record fields, .key name => fieldNamed? name fields
  | .record fields, .index position => fieldNamed? (natText position) fields
  | .list items, .key name => (index? name).bind (items[·]?)
  | .list items, .index position => items[position]?
  | _, _ => none

/-- The part of a value that the steps lead to, one after the other. -/
def Value.followAll? (value : Value) (segments : List Segment) : Option Value :=
  segments.foldlM Value.follow? value

end MarkupTemplate
