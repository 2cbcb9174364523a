import EstreeLowering.Binary64.Decimal
import EstreeLowering.Json.Scan

namespace EstreeLowering.Json

/-- A number as it is spelled. -/
structure Numeral where
  negative : Bool
  whole : List Char
  part : Option (List Char)
  exponent : Option Int

namespace Numeral

/-- The value without regard to how it is spelled, as a decimal. -/
def decimal (n : Numeral) : Binary64.Decimal :=
  let part := n.part.getD []
  ⟨n.negative, Nat.ofDigitChars 10 (n.whole ++ part) 0, n.exponent.getD 0 - part.length⟩

/-- The integer that is spelled, if neither a point nor an exponent nor the sign of a zero asks for
a double-precision number. -/
def integer? (n : Numeral) : Option Int :=
  let magnitude := Nat.ofDigitChars 10 n.whole 0
  if n.part.isSome || n.exponent.isSome then none
  else if n.negative then (if magnitude = 0 then none else some (-magnitude))
  else some magnitude

/-- None if the magnitude overflows. -/
def toNumber? (n : Numeral) : Option Number :=
  match n.integer?.bind Number.ofInt? with
  | some n => some n
  | none => n.decimal.toFinite?.map .real

end Numeral

def scanDigits (cs : List Char) : Scan (List Char) :=
  match cs.takeWhile Char.isDigit with
  | [] => .error (missing cs)
  | digits => .ok (digits, cs.dropWhile Char.isDigit)

/-- Digits without a zero in front of others. -/
def scanWhole (cs : List Char) : Scan (List Char) :=
  match scanDigits cs with
  | .ok ('0' :: _ :: _, _) => .error .malformed
  | scanned => scanned

def scanPart : List Char → Scan (Option (List Char))
  | '.' :: rest => mapRead some (scanDigits rest)
  | rest => .ok (none, rest)

/-- The digits of an exponent behind its sign, which may be left out. -/
def scanSigned : List Char → Scan Int
  | '-' :: rest =>
      mapRead (fun digits => -(Nat.ofDigitChars 10 digits 0 : Int)) (scanDigits rest)
  | '+' :: rest => mapRead (fun digits => (Nat.ofDigitChars 10 digits 0 : Int)) (scanDigits rest)
  | rest => mapRead (fun digits => (Nat.ofDigitChars 10 digits 0 : Int)) (scanDigits rest)

def scanExponent : List Char → Scan (Option Int)
  | c :: rest =>
      if c = 'e' ∨ c = 'E' then mapRead some (scanSigned rest)
      else .ok (none, c :: rest)
  | [] => .ok (none, [])

def scanUnsigned (negative : Bool) (cs : List Char) : Scan Numeral :=
  match scanWhole cs with
  | .error fault => .error fault
  | .ok (whole, rest) =>
      match scanPart rest with
      | .error fault => .error fault
      | .ok (part, rest) =>
          match scanExponent rest with
          | .error fault => .error fault
          | .ok (exponent, rest) => .ok (⟨negative, whole, part, exponent⟩, rest)

def scanNumeral : List Char → Scan Numeral
  | '-' :: rest => scanUnsigned true rest
  | rest => scanUnsigned false rest

/-- A number that overflows is malformed. -/
def scanNumber (cs : List Char) : Scan Number :=
  match scanNumeral cs with
  | .error fault => .error fault
  | .ok (numeral, rest) =>
      match numeral.toNumber? with
      | some n => .ok (n, rest)
      | none => .error .malformed

theorem length_of_scanDigits {cs rest digits : List Char}
    (scanned : scanDigits cs = .ok (digits, rest)) : rest.length < cs.length := by
  unfold scanDigits at scanned
  split at scanned
  · cases scanned
  · rename_i found
    simp only [Except.ok.injEq, Prod.mk.injEq] at scanned
    have whole : cs.takeWhile Char.isDigit ++ cs.dropWhile Char.isDigit = cs :=
      List.takeWhile_append_dropWhile
    have lengths := congrArg List.length whole
    have nonempty : 0 < (cs.takeWhile Char.isDigit).length :=
      List.length_pos_iff.mpr found
    rw [List.length_append] at lengths
    rw [← scanned.2]
    omega

theorem length_of_scanWhole {cs rest digits : List Char}
    (scanned : scanWhole cs = .ok (digits, rest)) : rest.length < cs.length := by
  unfold scanWhole at scanned
  split at scanned
  · cases scanned
  · exact length_of_scanDigits scanned

theorem length_of_scanPart {cs rest : List Char} {part : Option (List Char)}
    (scanned : scanPart cs = .ok (part, rest)) : rest.length ≤ cs.length := by
  unfold scanPart at scanned
  split at scanned
  · obtain ⟨_, inner⟩ := exists_of_mapRead scanned
    have shorter := length_of_scanDigits inner
    simp only [List.length_cons]
    omega
  · simp only [Except.ok.injEq, Prod.mk.injEq] at scanned
    exact Nat.le_of_eq (congrArg List.length scanned.2.symm)

theorem length_of_scanSigned {cs rest : List Char} {exponent : Int}
    (scanned : scanSigned cs = .ok (exponent, rest)) : rest.length < cs.length := by
  unfold scanSigned at scanned
  split at scanned
  · obtain ⟨_, inner⟩ := exists_of_mapRead scanned
    have shorter := length_of_scanDigits inner
    simp only [List.length_cons]
    omega
  · obtain ⟨_, inner⟩ := exists_of_mapRead scanned
    have shorter := length_of_scanDigits inner
    simp only [List.length_cons]
    omega
  · obtain ⟨_, inner⟩ := exists_of_mapRead scanned
    exact length_of_scanDigits inner

theorem length_of_scanExponent {cs rest : List Char} {exponent : Option Int}
    (scanned : scanExponent cs = .ok (exponent, rest)) : rest.length ≤ cs.length := by
  unfold scanExponent at scanned
  split at scanned
  · split at scanned
    · obtain ⟨_, inner⟩ := exists_of_mapRead scanned
      have shorter := length_of_scanSigned inner
      simp only [List.length_cons]
      omega
    · cases scanned
      exact Nat.le_refl _
  · cases scanned
    exact Nat.le_refl _

theorem length_of_scanUnsigned {negative : Bool} {cs rest : List Char} {numeral : Numeral}
    (scanned : scanUnsigned negative cs = .ok (numeral, rest)) : rest.length < cs.length := by
  unfold scanUnsigned at scanned
  split at scanned
  · cases scanned
  · rename_i wholeRead
    have afterWhole := length_of_scanWhole wholeRead
    split at scanned
    · cases scanned
    · rename_i partRead
      have afterPart := length_of_scanPart partRead
      split at scanned
      · cases scanned
      · rename_i exponentRead
        have afterExponent := length_of_scanExponent exponentRead
        simp only [Except.ok.injEq, Prod.mk.injEq] at scanned
        rw [← scanned.2]
        omega

theorem length_of_scanNumber {cs rest : List Char} {n : Number}
    (scanned : scanNumber cs = .ok (n, rest)) : rest.length < cs.length := by
  unfold scanNumber at scanned
  split at scanned
  · cases scanned
  · rename_i numeral behind found
    have shorter : behind.length < cs.length := by
      unfold scanNumeral at found
      split at found
      · have shorter := length_of_scanUnsigned found
        simp only [List.length_cons]
        omega
      · exact length_of_scanUnsigned found
    split at scanned
    · simp only [Except.ok.injEq, Prod.mk.injEq] at scanned
      rw [← scanned.2]
      exact shorter
    · cases scanned

end EstreeLowering.Json
