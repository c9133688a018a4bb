import MarkupTemplate.Text.Basic

namespace MarkupTemplate

/-- Each level tells what the ones before it tell, and more. -/
inductive Verbosity where
  | none
  | concise
  | verbose
  | debug
deriving DecidableEq, Repr, Inhabited

namespace Verbosity

/-- The level as a number. -/
def level : Verbosity → Nat
  | .none => 0
  | .concise => 1
  | .verbose => 2
  | .debug => 3

/-- The level of a number; what is above all levels is the last one. -/
def ofLevel : Nat → Verbosity
  | 0 => .none
  | 1 => .concise
  | 2 => .verbose
  | _ => .debug

/-- The level of a name; an unknown name is the concise one. -/
def ofName (name : Text) : Verbosity :=
  if name = "none".toList then .none
  else if name = "verbose".toList then .verbose
  else if name = "DEBUG".toList ∨ name = "debug".toList then .debug
  else .concise

/-- The name of a level. -/
def name : Verbosity → Text
  | .none => "None".toList
  | .concise => "Concise".toList
  | .verbose => "Verbose".toList
  | .debug => "Debug".toList

/-- What belongs to `level` is told at the given verbosity. -/
def tells (verbosity level : Verbosity) : Bool :=
  level ≠ .none && level.level ≤ verbosity.level

theorem ofLevel_level (v : Verbosity) : ofLevel v.level = v := by
  cases v <;> rfl

end Verbosity

end MarkupTemplate
