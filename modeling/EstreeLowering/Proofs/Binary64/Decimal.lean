import EstreeLowering.Binary64.Shortest
import Mathlib

/-!
What is read from a decimal depends on its magnitude alone, and the decimal that is chosen for a
number reads back as that number.

The clamps in `Decimal.code` save forming a power and decide nothing: `toFinite?_eq` states the
reading without them, and the magnitude as a quotient may then be cancelled freely.
-/

namespace EstreeLowering.Binary64

theorem roundHalfEven_mul_left {k : Nat} (positive : 0 < k) (num den : Nat) :
    roundHalfEven (k * num) (k * den) = roundHalfEven num den := by
  have quotient : k * num / (k * den) = num / den := Nat.mul_div_mul_left _ _ positive
  have remainder : 2 * (k * num % (k * den)) = k * (2 * (num % den)) := by
    rw [Nat.mul_mod_mul_left, Nat.mul_left_comm]
  unfold roundHalfEven
  simp only [quotient, remainder, Nat.mul_lt_mul_left positive]

theorem roundHalfEven_mul_self {den : Nat} (positive : 0 < den) (quotient : Nat) :
    roundHalfEven (quotient * den) den = quotient := by
  unfold roundHalfEven
  simp only [Nat.mul_mod_left, Nat.mul_zero, Nat.mul_div_cancel _ positive, if_pos positive]

theorem roundHalfEven_eq_zero {num den : Nat} (small : 2 * num < den) :
    roundHalfEven num den = 0 := by
  have below : num < den := by omega
  unfold roundHalfEven
  rw [Nat.mod_eq_of_lt below, if_pos small, Nat.div_eq_of_lt below]

theorem div_le_roundHalfEven (num den : Nat) : num / den ≤ roundHalfEven num den := by
  unfold roundHalfEven
  dsimp only
  split
  · exact Nat.le_refl _
  · split <;> omega

theorem fractionCount_eq : fractionCount = 2 ^ 52 := by
  rw [fractionCount, Nat.pow_eq]

theorem fractionCount_pos : 0 < fractionCount := by
  rw [fractionCount_eq]
  exact Nat.pow_pos (by decide)

theorem unitsPerOne_eq : unitsPerOne = 2 ^ 1074 := by
  rw [unitsPerOne, Nat.pow_eq]

theorem unitsPerOne_pos : 0 < unitsPerOne := by
  rw [unitsPerOne_eq]
  exact Nat.pow_pos (by decide)

theorem two_pow_mul_unitsPerOne (n : Nat) : 2 ^ n * unitsPerOne = 2 ^ (n + 1074) := by
  rw [unitsPerOne_eq, Nat.pow_add]

theorem nearestCode_mul_left {k : Nat} (positive : 0 < k) (num den : Nat) :
    nearestCode (k * num) (k * den) = nearestCode num den := by
  unfold nearestCode
  simp only [Nat.mul_assoc k, Nat.mul_div_mul_left _ _ positive, roundHalfEven_mul_left positive]

theorem nearestCode_eq_zero {num den : Nat} (small : 2 * (num * unitsPerOne) < den) :
    nearestCode num den = 0 := by
  have none : num * unitsPerOne / den = 0 := Nat.div_eq_of_lt (by omega)
  have rounded : roundHalfEven (num * unitsPerOne) den = 0 := roundHalfEven_eq_zero small
  unfold nearestCode
  simp only [none, Nat.log2_zero, Nat.zero_sub, Nat.pow_eq, Nat.pow_zero, Nat.mul_one, rounded,
    Nat.zero_mul]

theorem codeLimit_le_nearestCode {num : Nat} (large : 2 ^ 1024 ≤ num) :
    codeLimit ≤ nearestCode num 1 := by
  have many : 2 ^ (1024 + 1074) ≤ num * unitsPerOne := by
    rw [← two_pow_mul_unitsPerOne]
    exact Nat.mul_le_mul_right _ large
  have nonzero : num * unitsPerOne ≠ 0 := by
    have := Nat.two_pow_pos (1024 + 1074)
    omega
  unfold nearestCode
  simp only [Nat.div_one, Nat.one_mul, Nat.pow_eq]
  generalize num * unitsPerOne = units at many nonzero
  have scale : 1024 + 1074 ≤ units.log2 := (Nat.le_log2 nonzero).mpr many
  have significand : 2 ^ 52 ≤ roundHalfEven units (2 ^ (units.log2 - 52)) := by
    refine Nat.le_trans ?_ (div_le_roundHalfEven _ _)
    rw [Nat.le_div_iff_mul_le (Nat.two_pow_pos _), ← Nat.pow_add, Nat.add_sub_cancel' (by omega)]
    exact Nat.log2_self_le nonzero
  have exponent : 2046 * fractionCount ≤ (units.log2 - 52) * fractionCount :=
    Nat.mul_le_mul_right _ (by omega)
  rw [codeLimit]
  simp only [fractionCount_eq] at exponent ⊢
  omega

theorem roundHalfEven_le (num den : Nat) : roundHalfEven num den ≤ num / den + 1 := by
  unfold roundHalfEven
  dsimp only
  split
  · exact Nat.le_succ _
  · split <;> omega

theorem log2_lt_of_lt {n bits : Nat} (positive : 0 < bits) (small : n < 2 ^ bits) :
    n.log2 < bits := by
  by_cases zero : n = 0
  · simpa [zero] using positive
  · exact (Nat.log2_lt zero).mpr small

theorem nearestCode_lt_codeLimit {num bits : Nat} (few : bits ≤ 1023) (small : num < 2 ^ bits) :
    nearestCode num 1 < codeLimit := by
  have limited : num * unitsPerOne < 2 ^ (bits + 1074) :=
    two_pow_mul_unitsPerOne bits ▸ Nat.mul_lt_mul_of_pos_right small unitsPerOne_pos
  have scale := log2_lt_of_lt (Nat.succ_pos _) limited
  unfold nearestCode
  simp only [Nat.div_one, Nat.one_mul, Nat.pow_eq]
  generalize num * unitsPerOne = units at scale
  have quotient : units / 2 ^ (units.log2 - 52) < 2 ^ 53 := by
    rw [Nat.div_lt_iff_lt_mul (Nat.two_pow_pos _), ← Nat.pow_add]
    exact Nat.lt_of_lt_of_le Nat.lt_log2_self (Nat.pow_le_pow_right (by decide) (by omega))
  have significand := roundHalfEven_le units (2 ^ (units.log2 - 52))
  have exponent : (units.log2 - 52) * fractionCount ≤ 2044 * fractionCount :=
    Nat.mul_le_mul_right _ (by omega)
  rw [codeLimit]
  simp only [fractionCount_eq] at exponent ⊢
  omega

namespace Decimal

/-- The code nearest to the magnitude, whatever the exponent. -/
def exactCode (d : Decimal) : Nat :=
  if 0 ≤ d.exponent then nearestCode (d.digits * 10 ^ d.exponent.toNat) 1
  else nearestCode d.digits (10 ^ (-d.exponent).toNat)

theorem exactCode_neg (negative : Bool) (digits places : Nat) :
    exactCode ⟨negative, digits, -places⟩ = nearestCode digits (10 ^ places) := by
  unfold exactCode
  dsimp only
  split
  · have none : places = 0 := by omega
    subst none
    simp only [Nat.pow_zero, Int.toNat_zero, Int.natCast_zero, Int.neg_zero, Nat.mul_one]
  · rw [Int.neg_neg, Int.toNat_natCast]

theorem codeLimit_le_exactCode {d : Decimal} (nonzero : d.digits ≠ 0) (beyond : 400 < d.exponent) :
    codeLimit ≤ d.exactCode := by
  unfold exactCode
  rw [if_pos (by omega)]
  apply codeLimit_le_nearestCode
  calc 2 ^ 1024 ≤ 2 ^ (3 * d.exponent.toNat) := Nat.pow_le_pow_right (by decide) (by omega)
    _ = 8 ^ d.exponent.toNat := by rw [Nat.pow_mul]
    _ ≤ 10 ^ d.exponent.toNat := Nat.pow_le_pow_left (by decide) _
    _ ≤ d.digits * 10 ^ d.exponent.toNat := Nat.le_mul_of_pos_left _ (Nat.pos_of_ne_zero nonzero)

theorem exactCode_eq_zero {d : Decimal}
    (below : d.exponent + (d.digits.log2 + 1 : Nat) < -1100) : d.exactCode = 0 := by
  unfold exactCode
  rw [if_neg (by omega)]
  apply nearestCode_eq_zero
  calc 2 * (d.digits * unitsPerOne) < 2 * (2 ^ (d.digits.log2 + 1) * unitsPerOne) := by
        have bound := Nat.lt_log2_self (n := d.digits)
        have scaled := Nat.mul_lt_mul_of_pos_right bound unitsPerOne_pos
        omega
    _ = 2 ^ (d.digits.log2 + 1 + 1075) := by
        rw [two_pow_mul_unitsPerOne, ← Nat.pow_add_one', Nat.add_assoc]
    _ ≤ 2 ^ (-d.exponent).toNat := Nat.pow_le_pow_right (by decide) (by omega)
    _ ≤ 10 ^ (-d.exponent).toNat := Nat.pow_le_pow_left (by decide) _

theorem exactCode_zero (negative : Bool) (exponent : Int) :
    exactCode ⟨negative, 0, exponent⟩ = 0 := by
  have zero (den : Nat) (positive : 0 < den) : nearestCode 0 den = 0 :=
    nearestCode_eq_zero (by simpa using positive)
  unfold exactCode
  simp only [Nat.zero_mul]
  split
  · exact zero 1 (by decide)
  · exact zero _ (Nat.pow_pos (by decide))

theorem code_eq_or_overflows (d : Decimal) :
    d.code = d.exactCode ∨ codeLimit ≤ d.code ∧ codeLimit ≤ d.exactCode := by
  obtain ⟨negative, digits, exponent⟩ := d
  unfold code
  dsimp only
  split
  · rename_i zero
    rw [zero, exactCode_zero]
    exact .inl rfl
  · rename_i nonzero
    split
    · rename_i beyond
      exact .inr ⟨Nat.le_refl _, codeLimit_le_exactCode nonzero beyond⟩
    · split
      · rename_i below
        exact .inl (exactCode_eq_zero below).symm
      · exact .inl rfl

theorem toFinite?_eq (d : Decimal) :
    d.toFinite? =
      if code_lt : d.exactCode < codeLimit then some ⟨d.negative, d.exactCode, code_lt⟩
      else none := by
  unfold toFinite?
  rcases code_eq_or_overflows d with same | ⟨overflows, exactOverflows⟩
  · simp only [same]
  · rw [dif_neg (by omega), dif_neg (by omega)]

theorem toFinite?_eq_some {d : Decimal} {x : Finite} (sign : d.negative = x.negative)
    (code : d.exactCode = x.code) : d.toFinite? = some x := by
  obtain ⟨negative, nearest, code_lt⟩ := x
  dsimp only at sign code
  subst sign code
  rw [toFinite?_eq, dif_pos code_lt]

theorem exactCode_ten (negative : Bool) (digits : Nat) (exponent : Int) :
    exactCode ⟨negative, digits * 10, exponent - 1⟩ = exactCode ⟨negative, digits, exponent⟩ := by
  by_cases positive : 0 < exponent
  · have power : (10 : Nat) ^ exponent.toNat = 10 * 10 ^ (exponent - 1).toNat := by
      rw [← Nat.pow_add_one', show (exponent - 1).toNat + 1 = exponent.toNat by omega]
    unfold exactCode
    dsimp only
    rw [if_pos (by omega), if_pos (by omega), power, Nat.mul_assoc]
  · obtain ⟨places, rfl⟩ : ∃ places : Nat, exponent = -places := ⟨exponent.natAbs, by omega⟩
    rw [show -(places : Int) - 1 = -(places + 1 : Nat) by omega, exactCode_neg, exactCode_neg,
      Nat.pow_add_one', Nat.mul_comm digits, nearestCode_mul_left (by decide)]

theorem exactCode_tens (negative : Bool) (digits : Nat) (exponent : Int) (count : Nat) :
    exactCode ⟨negative, digits * 10 ^ count, exponent - count⟩ =
      exactCode ⟨negative, digits, exponent⟩ := by
  induction count with
  | zero => simp
  | succ count induction =>
      rw [Nat.pow_succ, ← Nat.mul_assoc,
        show exponent - (count + 1 : Nat) = exponent - count - 1 by omega, exactCode_ten, induction]

/-- Zeros behind the digits and an exponent less by their number change nothing. -/
theorem toFinite?_tens (negative : Bool) (digits : Nat) (exponent : Int) (count : Nat) :
    toFinite? ⟨negative, digits * 10 ^ count, exponent - count⟩ =
      toFinite? ⟨negative, digits, exponent⟩ := by
  simp only [toFinite?_eq, exactCode_tens]

theorem digits_ne_zero {d : Decimal} {x : Finite} (read : d.toFinite? = some x)
    (nonzero : x.isZero = false) : d.digits ≠ 0 := by
  intro zero
  have code : d.code = 0 := by rw [code, if_pos zero]
  unfold toFinite? at read
  split at read
  · cases read
    simp [Finite.isZero, code] at nonzero
  · cases read

end Decimal

/-- The integers of JSON are far from overflowing. -/
theorem exists_ofInt {n : Int}
    (inRange : -0x8000000000000000 ≤ n ∧ n < 0x10000000000000000) :
    ∃ x, ofInt n = .finite x := by
  have small : n.natAbs < 2 ^ 64 := by omega
  have code_lt : Decimal.exactCode ⟨decide (n < 0), n.natAbs, 0⟩ < codeLimit := by
    unfold Decimal.exactCode
    simpa using nearestCode_lt_codeLimit (by decide) small
  rw [ofInt, Decimal.toBinary64, Decimal.toFinite?_eq, dif_pos code_lt]
  exact ⟨_, rfl⟩

namespace Finite

variable (x : Finite)

theorem code_eq : x.code = x.shift * fractionCount + x.significand := by
  have quotient := Nat.div_mul_le_self x.code fractionCount
  have smaller : x.shift * fractionCount ≤ x.code / fractionCount * fractionCount :=
    Nat.mul_le_mul_right _ (Nat.sub_le _ _)
  unfold significand
  omega

/-- A magnitude has as many fraction bits as its exponent field says. -/
theorem log2_units : x.units.log2 - 52 = x.shift := by
  have split := x.code_eq
  rw [units, Nat.pow_eq]
  -- A scaled significand has its leading bit at place 52; an unscaled one may be shorter.
  by_cases scaled : 0 < x.shift
  · have large : 2 ^ 52 ≤ x.significand ∧ x.significand < 2 ^ 53 := by
      have quotient := Nat.div_add_mod x.code fractionCount
      have remainder := Nat.mod_lt x.code fractionCount_pos
      have field : x.code / fractionCount = x.shift + 1 := by
        unfold shift at *
        omega
      rw [field, Nat.mul_add, Nat.mul_one, Nat.mul_comm] at quotient
      simp only [fractionCount_eq] at split quotient remainder
      omega
    have nonzero : x.significand * 2 ^ x.shift ≠ 0 :=
      Nat.mul_ne_zero (by omega) (Nat.ne_of_gt (Nat.two_pow_pos _))
    have bits : (x.significand * 2 ^ x.shift).log2 = 52 + x.shift := by
      rw [Nat.log2_eq_iff nonzero, Nat.pow_add, Nat.add_right_comm, Nat.pow_add]
      exact ⟨Nat.mul_le_mul_right _ large.1,
        Nat.mul_lt_mul_of_pos_right large.2 (Nat.two_pow_pos _)⟩
    rw [bits, Nat.add_sub_cancel_left]
  · have unscaled : x.shift = 0 := by omega
    have small : x.significand < 2 ^ 53 := by
      have field : x.code / fractionCount < 2 := by
        unfold shift at unscaled
        omega
      have bound := (Nat.div_lt_iff_lt_mul fractionCount_pos).mp field
      rw [unscaled] at split
      rw [fractionCount_eq] at bound
      omega
    rw [unscaled, Nat.pow_zero, Nat.mul_one, Nat.sub_eq_zero_iff_le]
    by_cases zero : x.significand = 0
    · rw [zero, Nat.log2_zero]
      decide
    · exact Nat.le_of_lt_succ ((Nat.log2_lt zero).mpr small)

theorem nearestCode_units : nearestCode x.units unitsPerOne = x.code := by
  unfold nearestCode
  simp only [Nat.mul_div_cancel _ unitsPerOne_pos, log2_units]
  rw [Nat.mul_comm x.units, roundHalfEven_mul_left unitsPerOne_pos, units, Nat.pow_eq,
    roundHalfEven_mul_self (Nat.two_pow_pos _), ← code_eq]

theorem exactCode_exactDecimal : x.exactDecimal.exactCode = x.code := by
  have power (n : Nat) : (10 : Nat) ^ n = 5 ^ n * 2 ^ n := Nat.mul_pow 5 2 n
  have quotient (n : Nat) : Decimal.exactCode ⟨x.negative, x.units * 5 ^ n, -n⟩ =
      nearestCode x.units (2 ^ n) := by
    rw [Decimal.exactCode_neg, power, Nat.mul_comm x.units,
      nearestCode_mul_left (Nat.pow_pos (by decide))]
  have read := x.nearestCode_units
  rw [unitsPerOne_eq] at read
  exact (quotient 1074).trans read

theorem toFinite?_exactDecimal : x.exactDecimal.toFinite? = some x :=
  Decimal.toFinite?_eq_some rfl x.exactCode_exactDecimal

theorem toFinite?_decimalOf {count : Nat} {d : Decimal} (found : x.decimalOf? count = some d) :
    d.toFinite? = some x := by
  unfold decimalOf? at found
  have tried := List.find?_some found
  exact of_decide_eq_true tried

theorem toFinite?_shortestDecimal : x.shortestDecimal.toFinite? = some x := by
  unfold shortestDecimal
  cases chosen : (List.range 17).findSome? fun n => x.decimalOf? (n + 1) with
  | none => exact x.toFinite?_exactDecimal
  | some d =>
      obtain ⟨n, -, found⟩ := List.exists_of_findSome?_eq_some chosen
      exact x.toFinite?_decimalOf found

end Finite

end EstreeLowering.Binary64
