import EstreeLowering.Json.Lexer
import EstreeLowering.Proofs.Json.Number

namespace EstreeLowering.Json

section

variable {seen rest behind : List Char} {c : Char}

theorem hexValue?_digitChar : ∀ digit < 16, hexValue? (Nat.digitChar digit) = some digit := by
  decide

theorem scanString_quote :
    scanString seen ('"' :: rest) = .ok (String.ofList seen.reverse, rest) := by
  rw [scanString, if_pos rfl]

theorem scanString_escaped (escaped : scanEscape rest = .ok (c, behind)) :
    scanString seen ('\\' :: rest) = scanString (c :: seen) behind := by
  rw [scanString, if_neg (by decide), if_pos rfl]
  split
  · rename_i failed
    rw [escaped] at failed
    cases failed
  · rename_i read
    rw [escaped] at read
    cases read
    rfl

theorem scanString_plain (unquoted : c ≠ '"') (unescaped : c ≠ '\\') (printed : ¬ c.toNat < 0x20) :
    scanString seen (c :: rest) = scanString (c :: seen) rest := by
  rw [scanString, if_neg unquoted, if_neg unescaped, if_neg printed]

theorem scanEscape_short {letter : Char} (notUnit : letter ≠ 'u')
    (short : shortEscape? letter = some c) : scanEscape (letter :: rest) = .ok (c, rest) := by
  rw [scanEscape, if_neg notUnit, short]

theorem scanEscape_unit (control : c.toNat < 0x20) :
    scanEscape ('u' :: '0' :: '0' :: Nat.digitChar (c.toNat / 16) ::
      Nat.digitChar (c.toNat % 16) :: rest) = .ok (c, rest) := by
  have zero : hexValue? '0' = some 0 := rfl
  have high := hexValue?_digitChar (c.toNat / 16) (by omega)
  have low := hexValue?_digitChar (c.toNat % 16) (by omega)
  have unit : ((0 * 16 + 0) * 16 + c.toNat / 16) * 16 + c.toNat % 16 = c.toNat := by omega
  have notLow : isLowSurrogate c.toNat = false := by
    simp [isLowSurrogate]
    omega
  have notHigh : isHighSurrogate c.toNat = false := by
    simp [isHighSurrogate]
    omega
  simp only [scanEscape, if_true, scanCodePoint, scanUnit, zero, high, low, unit, notLow, notHigh,
    Bool.false_eq_true, if_false, Char.ofNat_toNat]

theorem scanString_escape (seen : List Char) (c : Char) (rest : List Char) :
    scanString seen (escape c ++ rest) = scanString (c :: seen) rest := by
  unfold escape
  split
  · subst c
    exact scanString_escaped (scanEscape_short (by decide) rfl)
  · rename_i unquoted
    split
    · subst c
      exact scanString_escaped (scanEscape_short (by decide) rfl)
    · rename_i unescaped
      repeat' split
      · subst c
        exact scanString_escaped (scanEscape_short (by decide) rfl)
      · subst c
        exact scanString_escaped (scanEscape_short (by decide) rfl)
      · subst c
        exact scanString_escaped (scanEscape_short (by decide) rfl)
      · subst c
        exact scanString_escaped (scanEscape_short (by decide) rfl)
      · subst c
        exact scanString_escaped (scanEscape_short (by decide) rfl)
      · exact scanString_escaped (scanEscape_unit (by assumption))
      · exact scanString_plain unquoted unescaped (by assumption)

theorem scanString_text (seen cs rest : List Char) :
    scanString seen (cs.flatMap escape ++ '"' :: rest) =
      .ok (String.ofList (seen.reverse ++ cs), rest) := by
  induction cs generalizing seen with
  | nil => rw [List.flatMap_nil, List.nil_append, scanString_quote, List.append_nil]
  | cons c cs ih =>
      rw [List.flatMap_cons, List.append_assoc, scanString_escape, ih, List.reverse_cons,
        List.append_assoc, List.singleton_append]

end

theorem ne_of_isDigit {c d : Char} (digit : c.isDigit = true) (other : d.isDigit = false) :
    c ≠ d := by
  intro same
  rw [← same, digit] at other
  cases other

/-- What a number begins with begins no other token and is no blank. -/
theorem scanToken_number {c : Char} (cs : List Char) (first : c = '-' ∨ c.isDigit = true) :
    isBlank c = false ∧ scanToken c cs = mapRead .number (scanNumber (c :: cs)) := by
  have unlike (d : Char) (other : d.isDigit = false) (notMinus : d ≠ '-') : c ≠ d := by
    rcases first with rfl | digit
    · exact notMinus.symm
    · exact ne_of_isDigit digit other
  have printed : isBlank c = false := by
    simp only [isBlank, Bool.or_eq_false_iff, beq_eq_false_iff_ne]
    exact ⟨⟨⟨unlike _ rfl (by decide), unlike _ rfl (by decide)⟩, unlike _ rfl (by decide)⟩,
      unlike _ rfl (by decide)⟩
  have unpunctuated : punctuation? c = none := by
    unfold punctuation?
    rw [if_neg (unlike _ rfl (by decide)), if_neg (unlike _ rfl (by decide)),
      if_neg (unlike _ rfl (by decide)), if_neg (unlike _ rfl (by decide)),
      if_neg (unlike _ rfl (by decide)), if_neg (unlike _ rfl (by decide))]
  refine ⟨printed, ?_⟩
  simp only [scanToken, unpunctuated]
  rw [if_neg (unlike '"' rfl (by decide)), if_pos first]

def Token.Before : Token → List Char → Prop
  | .number _, rest => EndsNumber rest
  | .broken _ _, _ => False
  | _, _ => True

/-- No token begins with a blank, and each is read back from its text. -/
theorem exists_scanToken {token : Token} {rest : List Char} (before : token.Before rest) :
    ∃ c cs, token.text = c :: cs ∧ isBlank c = false ∧
      scanToken c (cs ++ rest) = .ok (token, rest) := by
  cases token with
  | openArray => exact ⟨_, _, rfl, rfl, rfl⟩
  | closeArray => exact ⟨_, _, rfl, rfl, rfl⟩
  | openObject => exact ⟨_, _, rfl, rfl, rfl⟩
  | closeObject => exact ⟨_, _, rfl, rfl, rfl⟩
  | comma => exact ⟨_, _, rfl, rfl, rfl⟩
  | colon => exact ⟨_, _, rfl, rfl, rfl⟩
  | null => exact ⟨_, _, rfl, rfl, rfl⟩
  | boolean value =>
      cases value with
      | true => exact ⟨_, _, rfl, rfl, rfl⟩
      | false => exact ⟨_, _, rfl, rfl, rfl⟩
  | number n =>
      obtain ⟨c, cs, text, first⟩ := n.text_eq_cons
      obtain ⟨printed, numeric⟩ := scanToken_number (cs ++ rest) first
      refine ⟨c, cs, text, printed, ?_⟩
      rw [numeric, ← List.cons_append, ← text, scanNumber_text n before]
      rfl
  | string s =>
      refine ⟨_, _, rfl, rfl, ?_⟩
      rw [List.append_assoc, List.singleton_append]
      have scanned := scanString_text [] s.toList rest
      rw [List.reverse_nil, List.nil_append, String.ofList_toList] at scanned
      exact congrArg (mapRead Token.string) scanned
  | broken fault inString => exact before.elim

theorem lexOnto_text {token : Token} {seen : List Token} {rest : List Char}
    (before : token.Before rest) :
    lexOnto seen (token.text ++ rest) = lexOnto (token :: seen) rest := by
  obtain ⟨c, cs, text, printed, scanned⟩ := exists_scanToken before
  rw [text, List.cons_append, lexOnto]
  simp only [printed, Bool.false_eq_true, if_false]
  split
  · rename_i read
    rw [scanned] at read
    cases read
    rfl
  · rename_i failed
    rw [scanned] at failed
    cases failed

theorem lexOnto_blanks {seen : List Token} {blanks rest : List Char}
    (blank : ∀ c ∈ blanks, isBlank c = true) :
    lexOnto seen (blanks ++ rest) = lexOnto seen rest := by
  induction blanks with
  | nil => rfl
  | cons c blanks ih =>
      rw [List.cons_append, lexOnto, if_pos (blank c List.mem_cons_self)]
      exact ih fun c member => blank c (List.mem_cons_of_mem _ member)

end EstreeLowering.Json
