import EstreeLowering.Binary64.Basic

namespace EstreeLowering.Binary64

/-- The integer nearest to `num / den`; a half goes to the even neighbour. -/
def roundHalfEven (num den : Nat) : Nat :=
  let lower := num / den
  let twice := 2 * (num % den)
  if twice < den then lower
  else if den < twice then lower + 1
  else lower + lower % 2

/-- The code nearest to `num / den`. Rounding up to a power of two carries into the exponent field,
and a code of `codeLimit` or more says that the magnitude overflows. -/
def nearestCode (num den : Nat) : Nat :=
  let units := num * unitsPerOne
  let shift := (units / den).log2 - 52
  shift * fractionCount + roundHalfEven units (den * Nat.pow 2 shift)

/-- The number `digits * 10 ^ exponent` with a sign. -/
structure Decimal where
  negative : Bool
  digits : Nat
  exponent : Int
deriving DecidableEq

namespace Decimal

/-- The code nearest to the magnitude. Exponents far outside the range are answered without forming
the power: beyond `400` every nonzero magnitude overflows, and as `digits < 2 ^ (log2 digits + 1)`
the other test leaves only magnitudes below `10 ^ (-1100)`. -/
def code (d : Decimal) : Nat :=
  if d.digits = 0 then 0
  else if 400 < d.exponent then codeLimit
  else if d.exponent + (d.digits.log2 + 1 : Nat) < -1100 then 0
  else if 0 ≤ d.exponent then nearestCode (d.digits * Nat.pow 10 d.exponent.toNat) 1
  else nearestCode d.digits (Nat.pow 10 (-d.exponent).toNat)

/-- The finite number nearest to the decimal, a tie going to the even code, and none when the
nearest magnitude is beyond the largest finite one. The reading is correctly rounded. A reader that
scales the digits in double precision instead may end up one code away: it may take
`123456789.12345679` for the number that is written `123456789.1234568`. -/
def toFinite? (d : Decimal) : Option Finite :=
  if code_lt : d.code < codeLimit then some ⟨d.negative, d.code, code_lt⟩ else none

/-- As `toFinite?`, with infinity for what overflows. -/
def toBinary64 (d : Decimal) : Binary64 :=
  match d.toFinite? with
  | some x => .finite x
  | none => .infinite d.negative

end Decimal

/-- The number nearest to an integer, which is finite as integers of up to 64 bits are. -/
def ofInt (n : Int) : Binary64 :=
  Decimal.toBinary64 ⟨n < 0, n.natAbs, 0⟩

end EstreeLowering.Binary64
