import MarkupTemplate.Data.Model

namespace MarkupTemplate

/-- A text is made of plain characters and placeholders. -/
inductive Fragment where
  | plain (c : Char)
  | placeholder (path : Text)
deriving DecidableEq, Repr

/-- A character that is no brace. -/
def notBrace (c : Char) : Bool :=
  c != '{' && c != '}'

/-- The path of a placeholder and what follows it, after its opening brace. -/
def closedBrace? (text : Text) : Option (Text × Text) :=
  match text.takeWhile notBrace, text.dropWhile notBrace with
  | c :: path, '}' :: after => some (c :: path, after)
  | _, _ => none

theorem append_of_closedBrace? {text path after : Text}
    (h : closedBrace? text = some (path, after)) : path ++ '}' :: after = text := by
  unfold closedBrace? at h
  split at h
  next c tail rest ht hd =>
    simp only [Option.some.injEq, Prod.mk.injEq] at h
    rw [← h.1, ← h.2, ← ht, ← hd]
    exact List.takeWhile_append_dropWhile
  next => simp at h

theorem length_closedBrace?_lt {text path after : Text}
    (h : closedBrace? text = some (path, after)) : after.length < text.length := by
  have := congrArg List.length (append_of_closedBrace? h)
  simp only [List.length_append, List.length_cons] at this
  omega

/-- The fragments of a text. A placeholder is a non-empty text without braces between braces. -/
def fragments (text : Text) : List Fragment :=
  match text with
  | [] => []
  | c :: rest =>
    if c = '{' then
      match h : closedBrace? rest with
      | some (path, after) =>
        have : after.length < rest.length := length_closedBrace?_lt h
        .placeholder path :: fragments after
      | none => .plain c :: fragments rest
    else .plain c :: fragments rest
termination_by text.length

/-- A placeholder as it is written. -/
def placeholderText (path : Text) : Text :=
  '{' :: path ++ ['}']

namespace Fragment

/-- A fragment as it is written. -/
def source : Fragment → Text
  | .plain c => [c]
  | .placeholder path => placeholderText path

/-- The fragments of a text, as they are written, make up the text. -/
theorem flatMap_source_fragments (text : Text) : (fragments text).flatMap source = text := by
  fun_induction fragments text with
  | case1 => rfl
  | case2 rest path after h _ ih =>
    simp [source, placeholderText, ih, ← append_of_closedBrace? h]
  | case3 rest _ ih => simp [source, ih]
  | case4 c rest _ ih => simp [source, ih]

/-- A fragment with a placeholder replaced by its value, if it has one. -/
def fill (model : Model) : Fragment → Text
  | .plain c => [c]
  | .placeholder path =>
    match model.get? path with
    | some value => value.display
    | none => placeholderText path

/-- The path of a placeholder without a value. -/
def unresolved? (model : Model) : Fragment → Option Text
  | .plain _ => none
  | .placeholder path => if (model.get? path).isSome then none else some path

end Fragment

/-- The text with all placeholders replaced at once by their values. -/
def substitute (model : Model) (text : Text) : Text :=
  (fragments text).flatMap (·.fill model)

/-- The placeholders of a text that have no value, each once, in order. -/
def unresolved (model : Model) (text : Text) : List Text :=
  ((fragments text).filterMap (·.unresolved? model)).eraseDups

/-- What follows a placeholder of a name at the start of a text; case does not count. -/
def afterPlaceholder? (name : Text) : Text → Option Text
  | '{' :: rest =>
    match rest.drop name.length with
    | '}' :: after => if sameFold (rest.take name.length) name then some after else none
    | _ => none
  | _ => none

theorem length_afterPlaceholder?_lt {name text after : Text}
    (h : afterPlaceholder? name text = some after) : after.length < text.length := by
  unfold afterPlaceholder? at h
  split at h
  next rest =>
    split at h
    next tail hd =>
      split at h
      next =>
        have hl := congrArg List.length hd
        simp only [List.length_drop, List.length_cons, Option.some.injEq] at hl h ⊢
        rw [← h]
        omega
      next => simp at h
    next => simp at h
  next => simp at h

/-- The text with all placeholders of a name replaced. What is put in is not read again. Every name
can be looked for: there is no bound on its length, beyond which the text would stay as it is. -/
def bindArgument (name value : Text) (text : Text) : Text :=
  match text with
  | [] => []
  | c :: rest =>
    match h : afterPlaceholder? name (c :: rest) with
    | some after =>
      have : after.length ≤ rest.length := Nat.le_of_lt_succ (length_afterPlaceholder?_lt h)
      value ++ bindArgument name value after
    | none => c :: bindArgument name value rest
termination_by text.length

example : bindArgument "name".toList "$1 Hi".toList
      "<h1>\x7bName\x7d</h1>\x7bname\x7d\x7bnames\x7d".toList =
    "<h1>$1 Hi</h1>$1 Hi\x7bnames\x7d".toList := by decide +kernel

end MarkupTemplate
