import MarkupTemplate.Number.Basic
import MarkupTemplate.Data.Table

namespace MarkupTemplate

/-- A YAML float, which need not be finite. -/
inductive YamlFloat where
  | finite (value : Double)
  | infinity (negative : Bool)
  | nan
deriving DecidableEq, Repr

/-- Floats are the same when they are equal as numbers, or both none. -/
def YamlFloat.same : YamlFloat → YamlFloat → Bool
  | .finite a, .finite b => a == b || (a.isZero && b.isZero)
  | .infinity a, .infinity b => a == b
  | .nan, .nan => true
  | _, _ => false

/-- A YAML value. The entries of a mapping are in order, and a tag has no mark in front. -/
inductive Yaml where
  | null
  | bool (value : Bool)
  | integer (value : Int)
  | float (value : YamlFloat)
  | text (value : Text)
  | sequence (items : List Yaml)
  | mapping (entries : List (Yaml × Yaml))
  | tagged (tag : Text) (value : Yaml)
deriving Repr, Inhabited

namespace Yaml

mutual

/-- Two values are the same; the order of the entries of a mapping does not count. -/
def same : Yaml → Yaml → Bool
  | .null, .null => true
  | .bool a, .bool b => a == b
  | .integer a, .integer b => a == b
  | .float a, .float b => a.same b
  | .text a, .text b => a == b
  | .sequence a, .sequence b => sameItems a b
  | .mapping a, .mapping b => a.length == b.length && sameEntries a b
  | .tagged s a, .tagged t b => s == t && a.same b
  | _, _ => false

/-- Two lists have the same items. -/
def sameItems : List Yaml → List Yaml → Bool
  | [], [] => true
  | a :: as, b :: bs => a.same b && sameItems as bs
  | _, _ => false

/-- Each entry is found among the others. -/
def sameEntries : List (Yaml × Yaml) → List (Yaml × Yaml) → Bool
  | [], _ => true
  | (key, value) :: entries, others =>
    others.any (fun other => key.same other.1 && value.same other.2) && sameEntries entries others

end

/-- Replaces the value of a key where it stands, or puts a new entry at the end. -/
def insert (key value : Yaml) : List (Yaml × Yaml) → List (Yaml × Yaml)
  | [] => [(key, value)]
  | (k, old) :: rest => if k.same key then (k, value) :: rest else (k, old) :: insert key value rest

end Yaml

end MarkupTemplate
