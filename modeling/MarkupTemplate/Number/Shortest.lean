import MarkupTemplate.Number.Double

namespace MarkupTemplate

namespace Double

/-- The least power of ten above a positive quotient. -/
def decimalMagnitude (num den : Nat) : Int :=
  let guess := (num.log2 - den.log2 : Int) * 30103 / 100000 - 1
  let above (power : Int) : Bool :=
    let scaled := scaleDown 10 power (num, den)
    scaled.1 < scaled.2
  if above guess then guess
  else if above (guess + 1) then guess + 1
  else if above (guess + 2) then guess + 2
  else guess + 3

/-- Of a double's two neighbours on a decimal grid, the nearest one that reads back. The double is
`4 * mantissa` in quarters of its last place; a decimal reads back if it lies between the
midpoints to the next doubles, which belong to it when the mantissa is even. -/
def onGrid? (x : Double) (power : Int) : Option Nat :=
  let unit := scaleDown 2 (2 - x.exponent) (1, 1)
  let grid := scaleDown 10 power unit
  let quarters := 4 * x.mantissa
  let isLeast := x.mantissa = leastMantissa ∧ leastExponent < x.exponent
  let low := if isLeast then quarters - 1 else quarters - 2
  let high := quarters + 2
  let closed := x.mantissa % 2 = 0
  let value := quarters * grid.1
  let readsBack (digits : Nat) : Bool :=
    let d := digits * grid.2
    if closed then low * grid.1 ≤ d && d ≤ high * grid.1
    else low * grid.1 < d && d < high * grid.1
  let below := value / grid.2
  match readsBack below, readsBack (below + 1) with
  | true, true => some (roundQuotient value grid.2)
  | true, false => some below
  | false, true => some (below + 1)
  | false, false => none

/-- The digits of the shortest decimal that reads back and the power of ten they count. -/
def shortest (x : Double) : Nat × Int :=
  if x.mantissa = 0 then (0, 0)
  else
    let value := scaleDown 2 (-x.exponent) (x.mantissa, 1)
    let magnitude := decimalMagnitude value.1 value.2
    let grids := (List.range 17).map fun n : Nat => magnitude - 1 - (n : Int)
    (grids.findSome? fun power => (x.onGrid? power).map (·, power)).getD (0, 0)

example : shortest ⟨false, 1, -1074⟩ = (5, -324) := by decide +kernel

end Double

end MarkupTemplate
