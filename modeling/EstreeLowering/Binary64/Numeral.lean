import EstreeLowering.Binary64.Decimal

namespace EstreeLowering.Binary64

/-- The sign in front of a text, and the rest. -/
def takeSign : List Char → Bool × List Char
  | '-' :: rest => (true, rest)
  | '+' :: rest => (false, rest)
  | rest => (false, rest)

def integerOf? (cs : List Char) : Option Int :=
  let (negative, digits) := takeSign cs
  if digits.isEmpty || !digits.all Char.isDigit then none
  else
    let magnitude : Int := Nat.ofDigitChars 10 digits 0
    some (if negative then -magnitude else magnitude)

/-- A decimal without a sign; a digit has to stand before the point or behind it. -/
def decimalOf? (negative : Bool) (cs : List Char) : Option Decimal :=
  let whole := cs.takeWhile Char.isDigit
  let (part, rest) := match cs.dropWhile Char.isDigit with
    | '.' :: rest => (rest.takeWhile Char.isDigit, rest.dropWhile Char.isDigit)
    | rest => ([], rest)
  let digits := whole ++ part
  if digits.isEmpty then none
  else
    let exponent? := match rest with
      | [] => some 0
      | c :: rest => if c = 'e' ∨ c = 'E' then integerOf? rest else none
    exponent?.map fun exponent =>
      ⟨negative, Nat.ofDigitChars 10 digits 0, exponent - part.length⟩

/-- A number that is a text of its own: a decimal with or without a point and an exponent, or the
name of an infinity or of `nan`, all with an optional sign. -/
def ofText? (text : String) : Option Binary64 :=
  let (negative, magnitude) := takeSign text.toList
  match String.ofList (magnitude.map Char.toLower) with
  | "nan" => some .nan
  | "inf" | "infinity" => some (.infinite negative)
  | _ => (decimalOf? negative magnitude).map Decimal.toBinary64

end EstreeLowering.Binary64
