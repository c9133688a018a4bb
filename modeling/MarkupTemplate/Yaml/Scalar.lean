import MarkupTemplate.Yaml.Basic

namespace MarkupTemplate

/-- The value of a hexadecimal digit. -/
def hexDigit? (c : Char) : Option Nat :=
  if 'a' ≤ c ∧ c ≤ 'f' then some (c.toNat - 'a'.toNat + 10)
  else if 'A' ≤ c ∧ c ≤ 'F' then some (c.toNat - 'A'.toNat + 10)
  else digit? c

/-- The number that digits of a base write. -/
def baseValue? (base : Nat) (digits : Text) : Option Nat :=
  if digits.isEmpty then none
  else digits.foldlM
    (fun n c => (hexDigit? c).bind fun d => if d < base then some (base * n + d) else none) 0

/-- Digits that begin with a zero, though they are not just a zero. Such a text is no number. -/
def isZeroPadded (text : Text) : Bool :=
  let digits := match text with
    | '-' :: rest => rest
    | '+' :: rest => rest
    | _ => text
  1 < digits.length && digits.head? == some '0' && digits.all fun c => (digit? c).isSome

/-- An integer after its sign, in decimal or with the mark of another base. -/
def unsignedInteger? (text : Text) : Option Nat :=
  match text with
  | '0' :: 'x' :: digits => baseValue? 16 digits
  | '0' :: 'o' :: digits => baseValue? 8 digits
  | '0' :: 'b' :: digits => baseValue? 2 digits
  | digits => if isZeroPadded digits then none else baseValue? 10 digits

/-- An integer of any size. -/
def wholeNumber? : Text → Option Int
  | '-' :: rest => (unsignedInteger? rest).map fun n => -(n : Int)
  | '+' :: rest => (unsignedInteger? rest).map fun n => (n : Int)
  | text => (unsignedInteger? text).map fun n => (n : Int)

/-- A float: a finite numeral, an infinity, or not a number. -/
def yamlFloat? (text : Text) : Option YamlFloat :=
  let infinities := [".inf", ".Inf", ".INF"].map String.toList
  if [".nan", ".NaN", ".NAN"].map String.toList |>.contains text then some .nan
  else if infinities.contains text then some (.infinity false)
  else match text with
    | '+' :: rest =>
      if infinities.contains rest then some (.infinity false)
      else (Numeral.read? text).bind Numeral.double? |>.map .finite
    | '-' :: rest =>
      if infinities.contains rest then some (.infinity true)
      else (Numeral.read? text).bind Numeral.double? |>.map .finite
    | _ => (Numeral.read? text).bind Numeral.double? |>.map .finite

/-- A boolean. -/
def yamlBool? (text : Text) : Option Bool :=
  if ["true", "True", "TRUE"].map String.toList |>.contains text then some true
  else if ["false", "False", "FALSE"].map String.toList |>.contains text then some false
  else none

/-- A spelling of null that is not empty. -/
def isNullName (text : Text) : Bool :=
  ["null", "Null", "NULL", "~"].map String.toList |>.contains text

/-- The numbers below this fit 128 bits. -/
def doubleWordLimit : Nat := wordLimit * wordLimit

/-- Integers beyond 64 bits have no value as long as they stay within 128 bits. -/
def hasNoValue (n : Int) : Bool :=
  !inWord n && -(doubleWordLimit : Int) ≤ 2 * n && n < doubleWordLimit

/-- What a plain scalar is when it is no integer. -/
def plainNonInteger (text : Text) : Yaml :=
  if isZeroPadded text then .text text
  else match yamlFloat? text with
    | some x => .float x
    | none => .text text

/-- The value of a plain scalar. -/
def plainScalar? (text : Text) : Option Yaml :=
  if text.isEmpty || isNullName text then some .null
  else match yamlBool? text with
    | some b => some (.bool b)
    | none =>
      match wholeNumber? text with
      | some n =>
        if inWord n then some (.integer n)
        else if hasNoValue n then none
        else some (plainNonInteger text)
      | none => some (plainNonInteger text)

end MarkupTemplate
