namespace MarkupTemplate

/-- The finite double `± mantissa * 2 ^ exponent`. The mantissa lies below `2 ^ 53`, and below
`2 ^ 52` only at the least exponent, so a value has one form; zero keeps its sign. -/
structure Double where
  negative : Bool
  mantissa : Nat
  exponent : Int
deriving DecidableEq, Repr

namespace Double

/-- The least mantissa above the least exponent, `2 ^ 52`. -/
def leastMantissa : Nat := 4503599627370496

/-- The least exponent of a double. -/
def leastExponent : Int := -1074

/-- The greatest exponent of a double. -/
def greatestExponent : Int := 971

/-- The zero of a sign. -/
def zero (negative : Bool) : Double :=
  ⟨negative, 0, leastExponent⟩

/-- Zero of either sign. -/
def isZero (x : Double) : Bool :=
  x.mantissa == 0

/-- The whole number nearest to a quotient; of two equally near ones the even one. -/
def roundQuotient (num den : Nat) : Nat :=
  let q := num / den
  let r := num % den
  if 2 * r < den then q
  else if den < 2 * r then q + 1
  else if q % 2 = 0 then q else q + 1

/-- The quotient divided by `base ^ power`, again as a quotient. -/
def scaleDown (base : Nat) (power : Int) (quotient : Nat × Nat) : Nat × Nat :=
  if 0 ≤ power then (quotient.1, quotient.2 * Nat.pow base power.toNat)
  else (quotient.1 * Nat.pow base (-power).toNat, quotient.2)

/-- The exponent of the greatest power of two that a positive quotient reaches. -/
def binaryMagnitude (num den : Nat) : Int :=
  let guess : Int := num.log2 - den.log2
  let scaled := scaleDown 2 guess (num, den)
  if scaled.2 ≤ scaled.1 then guess else guess - 1

/-- The double nearest to a positive quotient, if it is not beyond all doubles. -/
def ofQuotient? (negative : Bool) (num den : Nat) : Option Double :=
  let exponent := max (binaryMagnitude num den - 52) leastExponent
  let scaled := scaleDown 2 exponent (num, den)
  let mantissa := roundQuotient scaled.1 scaled.2
  let x : Double :=
    if mantissa = 2 * leastMantissa then ⟨negative, leastMantissa, exponent + 1⟩
    else ⟨negative, mantissa, exponent⟩
  if x.exponent ≤ greatestExponent then some x else none

/-- The double nearest to `± digits * 10 ^ power`, if it is not beyond all doubles. -/
def ofDecimal? (negative : Bool) (digits : Nat) (power : Int) : Option Double :=
  if digits = 0 then some (zero negative)
  else
    let magnitude := (Nat.toDigits 10 digits).length + power
    if magnitude < -400 then some (zero negative)
    else if 400 < magnitude then none
    else
      let quotient := scaleDown 10 (-power) (digits, 1)
      ofQuotient? negative quotient.1 quotient.2

example : ofDecimal? false 9007199254740993 0 = some ⟨false, leastMantissa, 1⟩ := by decide +kernel

end Double

end MarkupTemplate
