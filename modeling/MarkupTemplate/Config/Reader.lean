import MarkupTemplate.Config.Basic
import MarkupTemplate.Yaml.Reader

namespace MarkupTemplate

/-- A verbosity is a number of one byte or a name. -/
def verbosityOf? : Node → Option Verbosity
  | .scalar label style text =>
    if (ownTag? label.tag).isSome then none
    else match scalarValue? label.tag style text with
      | some (.integer n) => if 0 ≤ n ∧ n < 256 then some (.ofLevel n.toNat) else none
      | some (.text name) => some (.ofName name)
      | _ => none
  | _ => none

/-- A path is any scalar. -/
def rootOf? : Node → Option Text
  | .scalar _ _ text => some text
  | _ => none

/-- A number of steps is a plain scalar without a minus sign. -/
def stepsOf? : Node → Option Nat
  | .scalar label style text =>
    let counts :=
      style = .plain ∨ (style = .literal ∧ label.tag = some (standardTag "int".toList))
    if !counts ∨ text.head? = some '-' then none
    else (wholeNumber? text).bind fun n => if n < wordLimit then some n.toNat else none
  | _ => none

/-- The fields of a configuration that have been given. -/
structure ConfigFields where
  verbosity : Option Verbosity := none
  templateRoot : Option Text := none
  maxSteps : Option Nat := none

namespace ConfigFields

/-- Takes an entry. A field may be given once. Keys and values may be aliases. -/
def add? (anchored : List (Nat × Node)) (fields : ConfigFields) (entry : Node × Node) :
    Option ConfigFields := do
  let node := entry.2.target? anchored
  match ← entry.1.target? anchored with
  | .scalar _ _ name =>
    if name = "verbosity".toList then
      if fields.verbosity.isSome then none
      else (node.bind verbosityOf?).map fun v => { fields with verbosity := some v }
    else if name = "template_root".toList then
      if fields.templateRoot.isSome then none
      else (node.bind rootOf?).map fun root => { fields with templateRoot := some root }
    else if name = "max_steps".toList then
      if fields.maxSteps.isSome then none
      else (node.bind stepsOf?).map fun steps => { fields with maxSteps := some steps }
    else some fields
  | _ => none

/-- The configuration with standard values for what is not given. -/
def config (fields : ConfigFields) : Config :=
  let standard : Config := {}
  { verbosity := fields.verbosity.getD standard.verbosity
    templateRoot := fields.templateRoot.getD standard.templateRoot
    maxSteps := fields.maxSteps.getD standard.maxSteps }

end ConfigFields

/-- Reads a configuration. A document that is missing or empty has the standard values. -/
def Config.read? (text : Text) : Option Config :=
  match yamlNode? text with
  | none => none
  | some none => some {}
  | some (some (.scalar _ .plain [])) => some {}
  | some (some (.mapping label entries)) =>
    let anchored := (Node.mapping label entries).anchored
    (entries.foldlM (ConfigFields.add? anchored) {}).map (·.config)
  | some (some _) => none

end MarkupTemplate
