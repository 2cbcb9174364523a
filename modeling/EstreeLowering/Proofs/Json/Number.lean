import EstreeLowering.Json.ScanNumber
import EstreeLowering.Json.Token
import EstreeLowering.Proofs.Binary64.Decimal
import Mathlib

namespace EstreeLowering.Json

open Binary64

structure IsDigits (digits : List Char) : Prop where
  ne_nil : digits ≠ []
  all : ∀ c ∈ digits, c.isDigit = true

theorem isDigits_toDigits (n : Nat) : IsDigits (Nat.toDigits 10 n) :=
  ⟨Nat.toDigits_ne_nil, fun _ member => Nat.isDigit_of_mem_toDigits (by decide) (by decide) member⟩

theorem isDigit_zeros (count : Nat) : ∀ c ∈ List.replicate count '0', c.isDigit = true := by
  intro c member
  rw [List.eq_of_mem_replicate member]
  rfl

theorem isDigits_zero : IsDigits ['0'] :=
  ⟨List.cons_ne_nil _ _, isDigit_zeros 1⟩

namespace IsDigits

variable {digits : List Char}

theorem zeros_append (isDigits : IsDigits digits) (count : Nat) :
    IsDigits (List.replicate count '0' ++ digits) := by
  refine ⟨List.append_ne_nil_of_right_ne_nil _ isDigits.ne_nil, ?_⟩
  intro c member
  exact (List.mem_append.mp member).elim (isDigit_zeros count c) (isDigits.all c)

theorem append_zeros (isDigits : IsDigits digits) (count : Nat) :
    IsDigits (digits ++ List.replicate count '0') := by
  refine ⟨List.append_ne_nil_of_left_ne_nil isDigits.ne_nil _, ?_⟩
  intro c member
  exact (List.mem_append.mp member).elim (isDigits.all c) (isDigit_zeros count c)

theorem of_subset {some : List Char} (isDigits : IsDigits digits) (nonempty : some ≠ [])
    (subset : some ⊆ digits) : IsDigits some :=
  ⟨nonempty, fun c member => isDigits.all c (subset member)⟩

end IsDigits

theorem scanDigits_append {digits rest : List Char} (isDigits : IsDigits digits)
    (ends : ∀ c ∈ rest.head?, c.isDigit = false) :
    scanDigits (digits ++ rest) = .ok (digits, rest) := by
  have taken : (digits ++ rest).takeWhile Char.isDigit = digits := by
    rw [List.takeWhile_append_of_pos isDigits.all]
    cases rest with
    | nil => simp
    | cons c rest => simp [ends c rfl]
  have dropped : (digits ++ rest).dropWhile Char.isDigit = rest := by
    rw [List.dropWhile_append_of_pos isDigits.all]
    cases rest with
    | nil => rfl
    | cons c rest => simp [ends c rfl]
  unfold scanDigits
  rw [taken, dropped]
  cases digits with
  | nil => exact absurd rfl isDigits.ne_nil
  | cons digit digits => rfl

theorem head_toDigits {n : Nat} (positive : 0 < n) : (Nat.toDigits 10 n).head? ≠ some '0' := by
  induction n using Nat.strongRecOn with
  | _ n ih =>
      by_cases single : n < 10
      · rw [Nat.toDigits_of_lt_base single, List.head?_cons]
        intro zero
        have := Nat.digitChar_eq_zero.mp (Option.some.inj zero)
        omega
      · rw [Nat.toDigits_of_base_le (by decide) (by omega), List.head?_append_of_ne_nil]
        · exact ih (n / 10) (by omega) (by omega)
        · exact Nat.toDigits_ne_nil

def EndsNumber (rest : List Char) : Prop :=
  ∀ c ∈ rest.head?, c.isDigit = false ∧ c ≠ '.' ∧ c ≠ 'e' ∧ c ≠ 'E'

namespace Numeral

def partText : Option (List Char) → List Char
  | none => []
  | some digits => '.' :: digits

def exponentText : Option Int → List Char
  | none => []
  | some exponent =>
      'e' :: (if exponent < 0 then '-' else '+') :: Nat.toDigits 10 exponent.natAbs

def text (n : Numeral) : List Char :=
  (if n.negative then ['-'] else []) ++ (n.whole ++ (partText n.part ++ exponentText n.exponent))

/-- Digits wherever there have to be some, and a zero in front only if it stands alone. -/
structure Proper (n : Numeral) : Prop where
  whole : IsDigits n.whole
  zero : n.whole.head? = some '0' → n.whole = ['0']
  part : ∀ digits, n.part = some digits → IsDigits digits

section

variable {negative : Bool} {whole part : List Char} {exponent : Option Int}

theorem proper_some (wholeDigits : IsDigits whole) (zero : whole.head? = some '0' → whole = ['0'])
    (partDigits : IsDigits part) : Proper ⟨negative, whole, some part, exponent⟩ := by
  refine ⟨wholeDigits, zero, ?_⟩
  intro digits same
  cases same
  exact partDigits

theorem proper_none (wholeDigits : IsDigits whole)
    (zero : whole.head? = some '0' → whole = ['0']) :
    Proper ⟨negative, whole, none, exponent⟩ := by
  refine ⟨wholeDigits, zero, ?_⟩
  intro digits same
  cases same

end

end Numeral

section

variable {rest : List Char}

theorem scanWhole_append {whole : List Char} (wholeDigits : IsDigits whole)
    (zero : whole.head? = some '0' → whole = ['0']) (ends : ∀ c ∈ rest.head?, c.isDigit = false) :
    scanWhole (whole ++ rest) = .ok (whole, rest) := by
  unfold scanWhole
  rw [scanDigits_append wholeDigits ends]
  split
  · rename_i scanned
    cases scanned
    cases zero rfl
  · rfl

theorem scanSigned_toDigits (exponent : Int) (ends : ∀ c ∈ rest.head?, c.isDigit = false) :
    scanSigned ((if exponent < 0 then '-' else '+') ::
      (Nat.toDigits 10 exponent.natAbs ++ rest)) = .ok (exponent, rest) := by
  have scanned := scanDigits_append (isDigits_toDigits exponent.natAbs) ends
  by_cases negative : exponent < 0
  · rw [if_pos negative]
    simp only [scanSigned, scanned, mapRead, Nat.ofDigitChars_ten_toDigits]
    rw [show -(exponent.natAbs : Int) = exponent by omega]
  · rw [if_neg negative]
    simp only [scanSigned, scanned, mapRead, Nat.ofDigitChars_ten_toDigits]
    rw [show (exponent.natAbs : Int) = exponent by omega]

theorem scanExponent_append (exponent : Option Int) (ends : EndsNumber rest) :
    scanExponent (Numeral.exponentText exponent ++ rest) = .ok (exponent, rest) := by
  cases exponent with
  | none =>
      cases rest with
      | nil => rfl
      | cons c rest =>
          obtain ⟨_, _, lower, upper⟩ := ends c rfl
          simp only [Numeral.exponentText, List.nil_append, scanExponent, lower, upper, or_self,
            if_false]
  | some exponent =>
      have scanned := scanSigned_toDigits exponent fun c first => (ends c first).1
      simp only [Numeral.exponentText, List.cons_append, scanExponent, true_or, if_true, scanned,
        mapRead]

theorem head_exponentText (exponent : Option Int) (ends : EndsNumber rest) :
    ∀ c ∈ (Numeral.exponentText exponent ++ rest).head?, c.isDigit = false ∧ c ≠ '.' := by
  intro c first
  cases exponent with
  | none => exact ⟨(ends c first).1, (ends c first).2.1⟩
  | some exponent =>
      obtain rfl : 'e' = c := Option.some.inj first
      exact ⟨rfl, by decide⟩

theorem scanPart_append {part : Option (List Char)}
    (partDigits : ∀ digits, part = some digits → IsDigits digits)
    (ends : ∀ c ∈ rest.head?, c.isDigit = false ∧ c ≠ '.') :
    scanPart (Numeral.partText part ++ rest) = .ok (part, rest) := by
  cases part with
  | none =>
      cases rest with
      | nil => rfl
      | cons c rest =>
          have point := (ends c rfl).2
          unfold scanPart
          split
          · rename_i same
            cases same
            exact absurd rfl point
          · rfl
  | some part =>
      have scanned := scanDigits_append (partDigits part rfl) fun c first => (ends c first).1
      simp only [Numeral.partText, List.cons_append, scanPart, scanned, mapRead]

theorem head_partText (part : Option (List Char))
    (ends : ∀ c ∈ rest.head?, c.isDigit = false) :
    ∀ c ∈ (Numeral.partText part ++ rest).head?, c.isDigit = false := by
  intro c first
  cases part with
  | none => exact ends c first
  | some part =>
      obtain rfl : '.' = c := Option.some.inj first
      rfl

theorem scanUnsigned_append {n : Numeral} (proper : n.Proper) (ends : EndsNumber rest) :
    scanUnsigned n.negative
        (n.whole ++ (Numeral.partText n.part ++ (Numeral.exponentText n.exponent ++ rest))) =
      .ok (n, rest) := by
  have exponentEnds := head_exponentText n.exponent ends
  have partEnds := head_partText n.part fun c first => (exponentEnds c first).1
  have whole := scanWhole_append proper.whole proper.zero partEnds
  have part := scanPart_append proper.part exponentEnds
  have exponent := scanExponent_append n.exponent ends
  simp only [scanUnsigned, whole, part, exponent]

theorem scanNumeral_append {n : Numeral} (proper : n.Proper) (ends : EndsNumber rest) :
    scanNumeral (n.text ++ rest) = .ok (n, rest) := by
  have unsigned := scanUnsigned_append proper ends
  unfold Numeral.text
  simp only [List.append_assoc]
  cases sign : n.negative with
  | true =>
      rw [sign] at unsigned
      exact unsigned
  | false =>
      rw [sign] at unsigned
      simp only [Bool.false_eq_true, if_false, List.nil_append]
      unfold scanNumeral
      split
      · rename_i minus
        have first : n.whole.head? = some '-' := by
          rw [← List.head?_append_of_ne_nil _ proper.whole.ne_nil, minus]
          rfl
        have digit := proper.whole.all '-' (List.mem_of_mem_head? first)
        cases digit
      · exact unsigned

end

namespace Figures

open Binary64.Finite

def decimal (f : Figures) : Decimal :=
  ⟨f.negative, Nat.ofDigitChars 10 f.digits 0, f.point - f.digits.length⟩

/-- No zero stands in front of the digits. -/
structure Proper (f : Figures) : Prop where
  digits : IsDigits f.digits
  head : f.digits.head? ≠ some '0'

/-- The numerals that figures are spelled as, by where the point stands: in front of the digits,
between them, behind them, or wherever the exponent puts it. -/
inductive Spells : Figures → Numeral → Prop
  | fraction {negative digits zeros} :
      Spells ⟨negative, digits, -(zeros : Nat)⟩
        ⟨negative, ['0'], some (List.replicate zeros '0' ++ digits), none⟩
  | mixed {negative whole part} (whole_ne_nil : whole ≠ []) (part_ne_nil : part ≠ []) :
      Spells ⟨negative, whole ++ part, whole.length⟩ ⟨negative, whole, some part, none⟩
  | whole {negative digits zeros} :
      Spells ⟨negative, digits, (digits.length + zeros : Nat)⟩
        ⟨negative, digits ++ List.replicate zeros '0', some ['0'], none⟩
  | scientific {negative digit part point} (part_ne_nil : part ≠ []) :
      Spells ⟨negative, digit :: part, point⟩ ⟨negative, [digit], some part, some (point - 1)⟩
  | power {negative digit point} :
      Spells ⟨negative, [digit], point⟩ ⟨negative, [digit], none, some (point - 1)⟩

variable {f : Figures} {n : Numeral}

theorem exists_spelling (proper : Proper f) : ∃ n, Spells f n ∧ n.text = f.text := by
  obtain ⟨negative, digits, point⟩ := f
  have nonempty : digits ≠ [] := proper.digits.ne_nil
  have length : 0 < digits.length := List.length_pos_iff.mpr nonempty
  unfold Figures.text
  dsimp only
  by_cases fraction : -5 < point ∧ point ≤ 0
  · rw [if_pos fraction]
    obtain ⟨zeros, rfl⟩ : ∃ zeros : Nat, point = -zeros := ⟨(-point).toNat, by omega⟩
    refine ⟨_, .fraction, ?_⟩
    simp [Numeral.text, Numeral.partText, Numeral.exponentText]
  · rw [if_neg fraction]
    by_cases positional : 0 < point ∧ point ≤ 16
    · rw [if_pos positional]
      by_cases short : digits.length ≤ point.toNat
      · obtain ⟨zeros, rfl⟩ : ∃ zeros : Nat, point = (digits.length + zeros : Nat) :=
          ⟨point.toNat - digits.length, by omega⟩
        refine ⟨_, .whole, ?_⟩
        rw [Int.toNat_natCast, List.take_of_length_le (Nat.le_add_right _ _),
          List.drop_of_length_le (Nat.le_add_right _ _), Nat.add_sub_cancel_left]
        simp [Numeral.text, Numeral.partText, Numeral.exponentText]
      · obtain ⟨whole, part, rfl, rfl⟩ :
            ∃ whole part, digits = whole ++ part ∧ point = (whole.length : Int) := by
          refine ⟨digits.take point.toNat, digits.drop point.toNat,
            (List.take_append_drop _ _).symm, ?_⟩
          rw [List.length_take]
          omega
        have whole_ne_nil : whole ≠ [] := List.length_pos_iff.mp (by omega)
        have part_ne_nil : part ≠ [] := by
          intro none
          simp [none] at short
        refine ⟨_, .mixed whole_ne_nil part_ne_nil, ?_⟩
        rw [Int.toNat_natCast, List.take_left, List.drop_left, Nat.sub_self]
        simp [Numeral.text, Numeral.partText, Numeral.exponentText, part_ne_nil]
    · rw [if_neg positional]
      cases digits with
      | nil => exact absurd rfl nonempty
      | cons digit part =>
          cases part with
          | nil =>
              refine ⟨_, .power, ?_⟩
              simp [Numeral.text, Numeral.partText, Numeral.exponentText]
          | cons second part =>
              refine ⟨_, .scientific (List.cons_ne_nil second part), ?_⟩
              simp [Numeral.text, Numeral.partText, Numeral.exponentText]

theorem Spells.integer? (spells : Spells f n) : n.integer? = none := by
  cases spells <;> simp [Numeral.integer?]

theorem Spells.proper (spells : Spells f n) (proper : Proper f) : n.Proper := by
  obtain ⟨digits, head⟩ := proper
  cases spells with
  | @fraction _ _ zeros =>
      exact Numeral.proper_some isDigits_zero (fun _ => rfl) (digits.zeros_append zeros)
  | mixed whole_ne_nil part_ne_nil =>
      rw [List.head?_append_of_ne_nil _ whole_ne_nil] at head
      have whole := digits.of_subset whole_ne_nil (List.subset_append_left _ _)
      have part := digits.of_subset part_ne_nil (List.subset_append_right _ _)
      exact Numeral.proper_some whole (fun zero => absurd zero head) part
  | @whole _ _ zeros =>
      rw [← List.head?_append_of_ne_nil _ digits.ne_nil] at head
      exact Numeral.proper_some (digits.append_zeros zeros) (fun zero => absurd zero head)
        isDigits_zero
  | @scientific _ digit part _ part_ne_nil =>
      have first : IsDigits [digit] := by
        refine digits.of_subset (List.cons_ne_nil digit []) fun c member => ?_
        exact List.mem_singleton.mp member ▸ List.mem_cons_self
      have part := digits.of_subset part_ne_nil (List.subset_cons_self _ _)
      exact Numeral.proper_some first (fun zero => absurd zero head) part
  | power => exact Numeral.proper_none digits fun zero => absurd zero head

/-- Zeros in front and a zero behind the point are no part of the magnitude. -/
theorem Spells.toFinite? (spells : Spells f n) :
    n.decimal.toFinite? = (decimal f).toFinite? := by
  cases spells with
  | @fraction negative digits zeros =>
      have digitsRead : Nat.ofDigitChars 10 (['0'] ++ (List.replicate zeros '0' ++ digits)) 0 =
          Nat.ofDigitChars 10 digits 0 := by
        have zero : Nat.ofDigitChars 10 ['0'] 0 = 0 := rfl
        rw [Nat.ofDigitChars_append, Nat.ofDigitChars_append, zero,
          Nat.ofDigitChars_replicate_zero, Nat.mul_zero]
      have point : (0 : Int) - (List.replicate zeros '0' ++ digits).length =
          -(zeros : Int) - digits.length := by
        rw [List.length_append, List.length_replicate]
        omega
      have value : (Numeral.mk negative ['0'] (some (List.replicate zeros '0' ++ digits))
          none).decimal = decimal ⟨negative, digits, -zeros⟩ := by
        simp only [Numeral.decimal, decimal, Option.getD_some, Option.getD_none, digitsRead, point]
      rw [value]
  | @mixed negative whole part =>
      have point : (0 : Int) - part.length = whole.length - (whole ++ part).length := by
        rw [List.length_append]
        omega
      have value : (Numeral.mk negative whole (some part) none).decimal =
          decimal ⟨negative, whole ++ part, whole.length⟩ := by
        simp only [Numeral.decimal, decimal, Option.getD_some, Option.getD_none, point]
      rw [value]
  | @whole negative digits zeros =>
      have value : (Numeral.mk negative (digits ++ List.replicate zeros '0') (some ['0'])
          none).decimal = ⟨negative, Nat.ofDigitChars 10 digits 0 * 10 ^ (zeros + 1),
            (zeros : Int) - (zeros + 1 : Nat)⟩ := by
        simp only [Numeral.decimal, Option.getD_some, Option.getD_none, List.append_assoc,
          ← List.replicate_succ', Nat.ofDigitChars_append, Nat.ofDigitChars_replicate_zero,
          List.length_singleton, Nat.mul_comm]
        rw [show (0 : Int) - (1 : Nat) = zeros - (zeros + 1 : Nat) by omega]
      rw [value, Decimal.toFinite?_tens, decimal]
      dsimp only
      rw [show ((digits.length + zeros : Nat) : Int) - digits.length = zeros by omega]
  | @scientific negative digit part point =>
      have place : point - 1 - part.length = point - (digit :: part).length := by
        rw [List.length_cons]
        omega
      have value : (Numeral.mk negative [digit] (some part) (some (point - 1))).decimal =
          decimal ⟨negative, digit :: part, point⟩ := by
        simp only [Numeral.decimal, decimal, Option.getD_some, List.singleton_append, place]
      rw [value]
  | @power negative digit point =>
      have place : point - 1 - ([] : List Char).length = point - [digit].length := by
        rw [List.length_singleton, List.length_nil]
        omega
      have value : (Numeral.mk negative [digit] none (some (point - 1))).decimal =
          decimal ⟨negative, [digit], point⟩ := by
        simp only [Numeral.decimal, decimal, Option.getD_some, Option.getD_none, List.append_nil,
          place]
      rw [value]

theorem digits_ofDecimal (d : Decimal) :
    ∃ zeros, Nat.toDigits 10 d.digits =
      (Figures.ofDecimal d).digits ++ List.replicate zeros '0' := by
  have split := congrArg List.reverse
    (List.takeWhile_append_dropWhile (p := (· == '0')) (l := (Nat.toDigits 10 d.digits).reverse))
  rw [List.reverse_append, List.reverse_reverse] at split
  have zeros : ((Nat.toDigits 10 d.digits).reverse.takeWhile (· == '0')).reverse =
      List.replicate ((Nat.toDigits 10 d.digits).reverse.takeWhile (· == '0')).reverse.length
        '0' := by
    refine List.eq_replicate_iff.mpr ⟨rfl, fun c member => ?_⟩
    have zero := List.mem_takeWhile_imp (p := (· == '0')) (List.mem_reverse.mp member)
    exact beq_iff_eq.mp zero
  rw [zeros] at split
  exact ⟨_, split.symm⟩

theorem toFinite?_ofDecimal (d : Decimal) :
    (decimal (Figures.ofDecimal d)).toFinite? = d.toFinite? := by
  obtain ⟨zeros, digits⟩ := digits_ofDecimal d
  have value := congrArg (Nat.ofDigitChars 10 · 0) digits
  simp only [Nat.ofDigitChars_ten_toDigits, Nat.ofDigitChars_append,
    Nat.ofDigitChars_replicate_zero] at value
  have length := congrArg List.length digits
  rw [List.length_append, List.length_replicate] at length
  have exponent : (decimal (Figures.ofDecimal d)).exponent - zeros = d.exponent := by
    change ((Nat.toDigits 10 d.digits).length : Int) + d.exponent -
      (Figures.ofDecimal d).digits.length - zeros = d.exponent
    omega
  have digits : (decimal (Figures.ofDecimal d)).digits * 10 ^ zeros = d.digits :=
    (Nat.mul_comm _ _).trans value.symm
  rw [← Decimal.toFinite?_tens _ _ _ zeros, digits, exponent]
  rfl

theorem proper_ofDecimal {d : Decimal} (nonzero : d.digits ≠ 0) : Proper (Figures.ofDecimal d) := by
  obtain ⟨zeros, digits⟩ := digits_ofDecimal d
  have ne_nil : (Figures.ofDecimal d).digits ≠ [] := by
    intro none
    have value := congrArg (Nat.ofDigitChars 10 · 0) digits
    simp only [Nat.ofDigitChars_ten_toDigits, none, List.nil_append,
      Nat.ofDigitChars_replicate_zero, Nat.mul_zero] at value
    exact nonzero value
  have isDigits := isDigits_toDigits d.digits
  have head := head_toDigits (Nat.pos_of_ne_zero nonzero)
  rw [digits] at isDigits head
  rw [List.head?_append_of_ne_nil _ ne_nil] at head
  exact ⟨isDigits.of_subset ne_nil (List.subset_append_left _ _), head⟩

end Figures

/-- The numerals that a number is spelled as. -/
def Number.SpelledAs (n : Number) (numeral : Numeral) : Prop :=
  n.text = numeral.text ∧ numeral.Proper ∧ numeral.toNumber? = some n

theorem spelledAs_integer (value : Int) (inRange) :
    (Number.integer value inRange).SpelledAs
      ⟨decide (value < 0), Nat.toDigits 10 value.natAbs, none, none⟩ := by
  refine ⟨?_, Numeral.proper_none (isDigits_toDigits _) ?_, ?_⟩
  · simp [Number.text, Numeral.text, Numeral.partText, Numeral.exponentText]
  · intro zero
    by_cases positive : 0 < value.natAbs
    · exact absurd zero (head_toDigits positive)
    · rw [show value.natAbs = 0 by omega, Nat.toDigits_zero]
  · have integer : Numeral.integer? ⟨decide (value < 0), Nat.toDigits 10 value.natAbs, none, none⟩ =
        some value := by
      simp only [Numeral.integer?, Nat.ofDigitChars_ten_toDigits, Option.isSome_none, Bool.or_self,
        Bool.false_eq_true, if_false, decide_eq_true_eq]
      by_cases negative : value < 0
      · rw [if_pos negative, if_neg (by omega)]
        exact congrArg some (by omega)
      · rw [if_neg negative]
        exact congrArg some (by omega)
    unfold Numeral.toNumber?
    rw [integer, Option.bind_some, Number.ofInt?, dif_pos inRange]

theorem toNumber?_of_decimal {numeral : Numeral} {x : Finite} (unspelled : numeral.integer? = none)
    (read : numeral.decimal.toFinite? = some x) : numeral.toNumber? = some (.real x) := by
  unfold Numeral.toNumber?
  rw [unspelled, Option.bind_none, read]
  rfl

theorem exists_spelledAs (n : Number) : ∃ numeral, n.SpelledAs numeral := by
  cases n with
  | integer value inRange => exact ⟨_, spelledAs_integer value inRange⟩
  | real x =>
      cases zero : x.isZero with
      | true =>
          refine ⟨⟨x.negative, ['0'], some ['0'], none⟩, ?_,
            Numeral.proper_some isDigits_zero (fun _ => rfl) isDigits_zero, ?_⟩
          · simp [Number.text, Finite.text, zero, Numeral.text, Numeral.partText,
              Numeral.exponentText]
          · refine toNumber?_of_decimal rfl (Decimal.toFinite?_eq_some rfl ?_)
            exact (Decimal.exactCode_zero _ _).trans (beq_iff_eq.mp zero).symm
      | false =>
          have read := x.toFinite?_shortestDecimal
          have proper := Figures.proper_ofDecimal (Decimal.digits_ne_zero read zero)
          obtain ⟨numeral, spells, text⟩ := Figures.exists_spelling proper
          refine ⟨numeral, ?_, spells.proper proper, toNumber?_of_decimal spells.integer? ?_⟩
          · simp [Number.text, Finite.text, zero, text]
          · rw [spells.toFinite?, Figures.toFinite?_ofDecimal, read]

/-- A number is read back from its text, whatever stands behind it that does not continue it. -/
theorem scanNumber_text (n : Number) {rest : List Char} (ends : EndsNumber rest) :
    scanNumber (n.text ++ rest) = .ok (n, rest) := by
  obtain ⟨numeral, text, proper, read⟩ := exists_spelledAs n
  unfold scanNumber
  rw [text, scanNumeral_append proper ends]
  simp only [read]

theorem Number.text_eq_cons (n : Number) :
    ∃ c cs, n.text = c :: cs ∧ (c = '-' ∨ c.isDigit = true) := by
  obtain ⟨numeral, text, proper, _⟩ := exists_spelledAs n
  rw [text]
  unfold Numeral.text
  cases numeral.negative with
  | true => exact ⟨_, _, rfl, .inl rfl⟩
  | false =>
      obtain ⟨digit, digits, whole⟩ := List.exists_cons_of_ne_nil proper.whole.ne_nil
      rw [whole]
      exact ⟨digit, _, rfl, .inr (proper.whole.all digit (whole ▸ List.mem_cons_self))⟩

end EstreeLowering.Json
