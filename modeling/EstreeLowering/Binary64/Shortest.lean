import EstreeLowering.Binary64.Decimal

namespace EstreeLowering.Binary64.Finite

/-- How many decimal digits stand before the point when the magnitude is written positionally; zero
or negative for a magnitude below a tenth. Counted on the magnitude times `10 ^ 400`, whose integer
part is not zero unless the magnitude is. -/
def pointPosition (x : Finite) : Int :=
  ((Nat.toDigits 10 (x.units * Nat.pow 10 400 / unitsPerOne)).length : Int) - 400

/-- The magnitude as a quotient, in steps of `10 ^ step`. -/
def inSteps (x : Finite) (step : Int) : Nat × Nat :=
  if 0 ≤ step then (x.units, unitsPerOne * Nat.pow 10 step.toNat)
  else (x.units * Nat.pow 10 (-step).toNat, unitsPerOne)

/-- The two decimals with that exponent around the magnitude, the nearer one first, of two equally
near ones the even one. -/
def neighbours (x : Finite) (exponent : Int) : List Decimal :=
  let (num, den) := x.inSteps exponent
  let lower : Decimal := ⟨x.negative, num / den, exponent⟩
  let upper : Decimal := ⟨x.negative, num / den + 1, exponent⟩
  if roundHalfEven num den = lower.digits then [lower, upper] else [upper, lower]

/-- The decimal of `count` digits that reads back: the nearer one if both neighbours do. They are
tried through the reader itself, so what is found reads back as the number it was found for. -/
def decimalOf? (x : Finite) (count : Nat) : Option Decimal :=
  (x.neighbours (x.pointPosition - count)).find? fun d => d.toFinite? = some x

/-- The magnitude written out to its last digit. -/
def exactDecimal (x : Finite) : Decimal :=
  ⟨x.negative, x.units * Nat.pow 5 1074, -1074⟩

/-- Seventeen digits are enough for every number; the written out decimal stands behind them. -/
def shortestDecimal (x : Finite) : Decimal :=
  ((List.range 17).findSome? fun n => x.decimalOf? (n + 1)).getD x.exactDecimal

/-- Sign, digits without zeros at the end, and the place of the point among them. -/
structure Figures where
  negative : Bool
  digits : List Char
  point : Int

def Figures.ofDecimal (d : Decimal) : Figures :=
  let digits := Nat.toDigits 10 d.digits
  ⟨d.negative, (digits.reverse.dropWhile (· == '0')).reverse, digits.length + d.exponent⟩

/-- Positional from `0.00001` up to below `10 ^ 16`, always with a digit after the point; otherwise
one digit before the point, a point only if more digits follow, and an exponent with its sign. -/
def Figures.text (f : Figures) : List Char :=
  let sign := if f.negative then ['-'] else []
  let magnitude :=
    if -5 < f.point ∧ f.point ≤ 0 then
      '0' :: '.' :: (List.replicate (-f.point).toNat '0' ++ f.digits)
    else if 0 < f.point ∧ f.point ≤ 16 then
      let places := f.point.toNat
      let whole := f.digits.take places
      let part := f.digits.drop places
      whole ++ List.replicate (places - whole.length) '0' ++
        '.' :: (if part.isEmpty then ['0'] else part)
    else
      let exponent := f.point - 1
      let part := f.digits.drop 1
      f.digits.take 1 ++ (if part.isEmpty then [] else '.' :: part) ++
        'e' :: (if exponent < 0 then '-' else '+') :: Nat.toDigits 10 exponent.natAbs
  sign ++ magnitude

def text (x : Finite) : List Char :=
  if x.isZero then (if x.negative then ['-'] else []) ++ ['0', '.', '0']
  else (Figures.ofDecimal x.shortestDecimal).text

end EstreeLowering.Binary64.Finite
