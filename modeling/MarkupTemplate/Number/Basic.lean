import MarkupTemplate.Number.Shortest
import MarkupTemplate.Text.Basic

namespace MarkupTemplate

/-- A number is an integer within 64 bits, signed or unsigned, or a finite double. -/
inductive Number where
  | integer (value : Int)
  | double (value : Double)
deriving DecidableEq, Repr

/-- Where a double is written with an exponent, and how. -/
structure NumberLayout where
  leastPositional : Int
  greatestPositional : Int
  plusSign : Bool

/-- Numerals of JSON text: plain digits from `0.00001` up to sixteen places before the point. -/
def jsonLayout : NumberLayout := ⟨-5, 15, true⟩

/-- Numerals of YAML text differ from those of JSON text in the sign of the exponent. -/
def yamlLayout : NumberLayout := ⟨-5, 15, false⟩

/-- Digits whose first one counts `10 ^ lead`, with a point at their place. -/
def positionalText (digits : Text) (lead : Int) : Text :=
  if lead < 0 then '0' :: '.' :: List.replicate (-lead - 1).toNat '0' ++ digits
  else
    let whole := lead.toNat + 1
    if digits.length ≤ whole then
      digits ++ List.replicate (whole - digits.length) '0' ++ ['.', '0']
    else digits.take whole ++ '.' :: digits.drop whole

/-- Digits whose first one counts `10 ^ lead`, with an exponent. -/
def exponentText (plusSign : Bool) (digits : Text) (lead : Int) : Text :=
  let sign := if lead < 0 then ['-'] else if plusSign then ['+'] else []
  let fraction := digits.drop 1
  digits.take 1 ++ (if fraction.isEmpty then [] else '.' :: fraction) ++
    'e' :: sign ++ natText lead.natAbs

/-- The shortest numeral of a double, always with a fraction or an exponent. -/
def Double.text (layout : NumberLayout) (x : Double) : Text :=
  let sign := if x.negative then ['-'] else []
  if x.isZero then sign ++ ['0', '.', '0']
  else
    let (digits, power) := x.shortest
    let written := natText digits
    let lead := power + written.length - 1
    let kept := (written.reverse.dropWhile (· == '0')).reverse
    if layout.leastPositional ≤ lead ∧ lead ≤ layout.greatestPositional then
      sign ++ positionalText kept lead
    else sign ++ exponentText layout.plusSign kept lead

/-- The text of a number. -/
def Number.text (layout : NumberLayout) : Number → Text
  | .integer value => intText value
  | .double value => value.text layout

/-- Zero, of any kind and sign. -/
def Number.isZero : Number → Bool
  | .integer value => value == 0
  | .double value => value.isZero

/-- A decimal numeral with a fraction or an exponent: `± digits * 10 ^ power`. -/
structure Numeral where
  negative : Bool
  digits : Nat
  power : Int
deriving DecidableEq, Repr

/-- The exponent at the end of a numeral, which may be missing. -/
def readExponent? : Text → Option Int
  | [] => some 0
  | mark :: rest =>
    if mark == 'e' || mark == 'E' then
      let (negative, digits) := match rest with
        | '-' :: digits => (true, digits)
        | '+' :: digits => (false, digits)
        | digits => (false, digits)
      if digits.isEmpty then none
      else (digitsValue? 0 digits).map fun n => if negative then -(n : Int) else n
    else none

/-- Digits with a point before, among or after them, and at least one of them. -/
def readUnsigned? (negative : Bool) (text : Text) : Option Numeral :=
  let isDigit := fun c => (digit? c).isSome
  let whole := text.takeWhile isDigit
  let rest := text.dropWhile isDigit
  let (fraction, rest) := match rest with
    | '.' :: rest => (rest.takeWhile isDigit, rest.dropWhile isDigit)
    | _ => ([], rest)
  let digits := whole ++ fraction
  if digits.isEmpty then none
  else do
    let exponent ← readExponent? rest
    let value ← digitsValue? 0 digits
    some ⟨negative, value, exponent - fraction.length⟩

/-- Reads a decimal numeral, sign included. -/
def Numeral.read? : Text → Option Numeral
  | '-' :: rest => readUnsigned? true rest
  | '+' :: rest => readUnsigned? false rest
  | text => readUnsigned? false text

/-- The double nearest to a numeral, if there is one. -/
def Numeral.double? (numeral : Numeral) : Option Double :=
  Double.ofDecimal? numeral.negative numeral.digits numeral.power

/-- An integer that fits 64 bits, signed or unsigned. -/
def inWord (n : Int) : Bool :=
  -(wordLimit : Int) ≤ 2 * n && n < wordLimit

/-- The number that a JSON numeral writes. Without fraction and exponent it is an integer if it
fits 64 bits and is not a negative zero, else a double. -/
def Number.ofJson? (text : Text) : Option Number := do
  let numeral ← Numeral.read? text
  let value : Int := if numeral.negative then -numeral.digits else numeral.digits
  let isWhole := text.all fun c => c != '.' && c != 'e' && c != 'E'
  if isWhole && inWord value && !(numeral.negative && numeral.digits == 0) then
    some (.integer value)
  else numeral.double?.map .double

example : (Number.ofJson? "18446744073709551616".toList).map (·.text jsonLayout) =
    some "1.8446744073709552e+19".toList := by decide +kernel

end MarkupTemplate
