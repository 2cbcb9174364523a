/-!
Double-precision numbers, exactly.

A finite magnitude is held as its `code`, the exponent field above the fraction field, so codes are
ordered as the magnitudes are. Its value is `significand * 2 ^ shift` units of `2 ^ (-1074)`, the
least positive magnitude. No machine arithmetic is involved: every question about a number is a
question about natural numbers.
-/

namespace EstreeLowering

namespace Binary64

/-- Number of fractions that share one exponent field. -/
def fractionCount : Nat := Nat.pow 2 52

/-- The least code that is no finite magnitude. -/
def codeLimit : Nat := 2047 * fractionCount

/-- A unit is the least positive magnitude; one is this many units. -/
def unitsPerOne : Nat := Nat.pow 2 1074

/-- A finite number. Zero has two signs. -/
structure Finite where
  negative : Bool
  code : Nat
  code_lt : code < codeLimit
deriving DecidableEq

namespace Finite

/-- The first two exponent fields share the scale of the units themselves. -/
def shift (x : Finite) : Nat :=
  x.code / fractionCount - 1

def significand (x : Finite) : Nat :=
  x.code - x.shift * fractionCount

/-- The magnitude in units. -/
def units (x : Finite) : Nat :=
  x.significand * Nat.pow 2 x.shift

def isZero (x : Finite) : Bool :=
  x.code == 0

/-- Numerical equality: the two zeros are equal. -/
def equal (x y : Finite) : Bool :=
  x.code == y.code && (x.negative == y.negative || x.isZero)

end Finite

end Binary64

/-- A double-precision number. -/
inductive Binary64 where
  | finite (number : Binary64.Finite)
  | infinite (negative : Bool)
  | nan
deriving DecidableEq

namespace Binary64

/-- Numerical equality: the two zeros are equal, and `nan` differs from itself. -/
def equal : Binary64 → Binary64 → Bool
  | .finite x, .finite y => x.equal y
  | .infinite s, .infinite t => s == t
  | _, _ => false

end Binary64

end EstreeLowering
