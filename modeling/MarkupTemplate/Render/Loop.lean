import MarkupTemplate.Render.Include

namespace MarkupTemplate

/-- A loop that can run: the names that it binds, and the keys and values of its collection. -/
structure Loop where
  valueName : Text
  keyName : Option Text
  entries : List (Value × Value)

/-- The keys and values of a list or record. -/
def Value.entries? : Value → Option (List (Value × Value))
  | .list items => some (items.zipIdx.map fun (item, index) => (.number (.integer index), item))
  | .record fields => some (fields.map fun (name, value) => (.text name, value))
  | _ => none

/-- The items of a list in order, each with its index as its key. -/
theorem Value.getElem?_entries?_list {items : List Value} {entries : List (Value × Value)}
    (h : (Value.list items).entries? = some entries) (index : Nat) :
    entries[index]? = items[index]?.map fun item => (.number (.integer index), item) := by
  cases h
  rw [List.getElem?_map, List.getElem?_zipIdx, Option.map_map]
  simp [Function.comp_def]

/-- The values of a record in order, each with its name as its key. -/
theorem Value.getElem?_entries?_record {fields : List (Text × Value)}
    {entries : List (Value × Value)} (h : (Value.record fields).entries? = some entries)
    (index : Nat) :
    entries[index]? = fields[index]?.map fun field => (.text field.1, field.2) := by
  cases h
  exact List.getElem?_map ..

theorem Value.entries?_eq_none_iff {value : Value} :
    value.entries? = none ↔
      (∀ items, value ≠ .list items) ∧ ∀ fields, value ≠ .record fields := by
  cases value <;> simp [entries?]

/-- The loop that an element asks for, or why it cannot run. -/
def Loop.read (model : Model) (element : Element) : Except Notice Loop :=
  match element.setting? "val".toList with
  | none => .error .loopWithoutValue
  | some valueName =>
    match element.setting? "in".toList with
    | none => .error .loopWithoutCollection
    | some collection =>
      let name := lowerText collection
      match model.get? name with
      | none => .error (.undefinedCollection name)
      | some value =>
        match value.entries? with
        | some entries =>
          .ok ⟨lowerText valueName, (element.setting? "key".toList).map lowerText, entries⟩
        | none => .error (if value.isFalsy then .undefinedCollection name else .notCollection name)

/-- The model of an iteration. The key is bound after the value. -/
def Loop.bind (loop : Loop) (model : Model) (entry : Value × Value) : Model :=
  let model := model.set loop.valueName entry.2
  match loop.keyName with
  | some name => model.set name entry.1
  | none => model

/-- The text of an iteration. Loops inside are kept for later, as they bind names of their own. -/
def iterationText (model : Model) (body : List Piece) : Text :=
  body.flatMap fun
    | .markup text => substitute model text
    | .kept text => text

/-- Runs the iterations for entries in order; `inner` resolves the loops inside. -/
def iterate (context : Context) (inner : Run → Forest → Option (Run × Forest)) (loop : Loop)
    (body : List Piece) : List (Value × Value) → Run → Option (Run × Forest)
  | [], run => some (run, .nil)
  | entry :: entries, run => do
    let run := { run with model := loop.bind run.model entry }
    let (run, forest) := run.read (iterationText run.model body)
    let (run, forest) := resolveTags context run forest
    let (run, forest) ← inner run forest
    let (run, others) ← iterate context inner loop body entries run
    some (run, forest ++ others)

/-- The output of a loop element with its body. -/
def resolveLoop (context : Context) (inner : Run → Forest → Option (Run × Forest)) (run : Run)
    (element : Element) (body : Forest) : Option (Run × Forest) :=
  match Loop.read run.model element with
  | .error notice => some (run.note notice, .nil)
  | .ok loop =>
    let pieces := body.pieces fun content _ => content.isElement (·.isLoop)
    iterate context inner loop pieces loop.entries run

/-- The loop that a node is. -/
def Content.loop? (content : Content) : Option Element :=
  content.element?.filter (·.isLoop)

/-- Replaces every outermost loop by its output, in document order. -/
def replaceLoops (output : Run → Element → Forest → Option (Run × Forest)) :
    Forest → Run → Option (Run × Forest)
  | .nil, run => some (run, .nil)
  | .node content children next, run =>
    match content.loop? with
    | some element => do
      let (run, inside) ← output run element children
      let (run, rest) ← replaceLoops output next run
      some (run, inside ++ rest)
    | none => do
      let (run, inside) ← replaceLoops output children run
      let (run, rest) ← replaceLoops output next run
      some (run, .node content inside rest)

/-- Resolves all loops, up to `depth` of them inside each other. Values may bring in loops, so no
template alone bounds the depth. -/
def resolveLoops (context : Context) : Nat → Run → Forest → Option (Run × Forest)
  | 0, run, forest => replaceLoops (fun _ _ _ => none) forest run
  | depth + 1, run, forest =>
    replaceLoops (resolveLoop context (resolveLoops context depth)) forest run

end MarkupTemplate
