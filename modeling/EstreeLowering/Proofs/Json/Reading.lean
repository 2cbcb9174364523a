import EstreeLowering.Json.Reader
import EstreeLowering.Proofs.Json.Layout

namespace EstreeLowering.Json

/-- No value begins with a closing bracket. -/
theorem exists_tokensBefore (value : Json) (rest : List Token) :
    ∃ token behind, value.tokensBefore rest = token :: behind ∧ token.closes = false := by
  cases value <;> exact ⟨_, _, rfl, rfl⟩

section

variable {frames : List Frame} {token : Token} {behind : List Token}

theorem readOn_openArray (shallow : frames.length < maxNesting) (inside : token.closes = false) :
    readOn .value frames (.openArray :: token :: behind) =
      readOn .value (.array [] :: frames) (token :: behind) := by
  rw [readOn, if_neg (by omega)]
  intro rest same
  cases same
  cases inside

theorem readOn_openObject (key : String) (shallow : frames.length < maxNesting) :
    readOn .value frames (.openObject :: .string key :: behind) =
      readOn (.key []) frames (.string key :: behind) := by
  rw [readOn, if_neg (by omega)]
  intro rest same
  cases same

theorem readOn_key (key : String) (before : List (String × Json)) :
    readOn (.key before) frames (.string key :: .colon :: behind) =
      readOn .value (.object before key :: frames) behind := by
  simp only [readOn]

end

theorem exists_entryTokensBefore {entries : List (String × Json)} (nonempty : entries ≠ [])
    (rest : List Token) :
    ∃ key behind, entryTokensBefore entries rest = .string key :: .colon :: behind := by
  match entries with
  | [] => exact absurd rfl nonempty
  | [(key, value)] => exact ⟨key, _, rfl⟩
  | (key, value) :: second :: entries => exact ⟨key, _, rfl⟩

theorem exists_itemTokensBefore {items : List Json} (nonempty : items ≠ []) (rest : List Token) :
    ∃ token behind, itemTokensBefore items rest = token :: behind ∧ token.closes = false := by
  match items with
  | [] => exact absurd rfl nonempty
  | [item] => exact exists_tokensBefore item rest
  | item :: second :: items => exact exists_tokensBefore item _

mutual

theorem readOn_value (value : Json) (frames : List Frame) (rest : List Token)
    (shallow : value.height + frames.length ≤ maxNesting) :
    readOn .value frames (value.tokensBefore rest) = readOn (.rest value) frames rest := by
  match value with
  | .null => rw [tokensBefore, readOn]
  | .boolean value => rw [tokensBefore, readOn]
  | .number n => rw [tokensBefore, readOn]
  | .string s => rw [tokensBefore, readOn]
  | .array items =>
      rw [height] at shallow
      rw [tokensBefore]
      by_cases nonempty : items = []
      · rw [nonempty, itemTokensBefore, readOn, if_neg (by omega)]
      · obtain ⟨token, behind, first, inside⟩ :=
          exists_itemTokensBefore nonempty (.closeArray :: rest)
        have read := readOn_items items nonempty [] frames rest (by omega)
        rw [first] at read ⊢
        rw [readOn_openArray (by omega) inside, read, List.reverse_nil, List.nil_append]
  | .object entries =>
      rw [height] at shallow
      rw [tokensBefore]
      by_cases nonempty : entries = []
      · rw [nonempty, entryTokensBefore, readOn, if_neg (by omega)]
      · obtain ⟨key, behind, first⟩ := exists_entryTokensBefore nonempty (.closeObject :: rest)
        have read := readOn_entries entries nonempty [] frames rest (by omega)
        rw [first] at read ⊢
        rw [readOn_openObject key (by omega), read, List.reverse_nil, List.nil_append]

/-- The items that are left, behind those of `before`, which stand last first. -/
theorem readOn_items (items : List Json) (nonempty : items ≠ []) (before : List Json)
    (frames : List Frame) (rest : List Token)
    (shallow : heightOfItems items + frames.length < maxNesting) :
    readOn .value (.array before :: frames) (itemTokensBefore items (.closeArray :: rest)) =
      readOn (.rest (.array (before.reverse ++ items))) frames rest := by
  match items with
  | [] => exact absurd rfl nonempty
  | [item] =>
      rw [heightOfItems] at shallow
      have read := readOn_value item (.array before :: frames) (.closeArray :: rest)
        (by rw [List.length_cons]; omega)
      rw [itemTokensBefore, read, readOn, List.reverse_cons]
  | item :: second :: items =>
      rw [heightOfItems] at shallow
      have read := readOn_value item (.array before :: frames)
        (.comma :: itemTokensBefore (second :: items) (.closeArray :: rest))
        (by rw [List.length_cons]; omega)
      have readRest := readOn_items (second :: items) (List.cons_ne_nil _ _) (item :: before)
        frames rest (by omega)
      rw [itemTokensBefore, read, readOn, readRest, List.reverse_cons, List.append_assoc,
        List.singleton_append]
      exact fun impossible => nomatch impossible

theorem readOn_entries (entries : List (String × Json)) (nonempty : entries ≠ [])
    (before : List (String × Json)) (frames : List Frame) (rest : List Token)
    (shallow : heightOfEntries entries + frames.length < maxNesting) :
    readOn (.key before) frames (entryTokensBefore entries (.closeObject :: rest)) =
      readOn (.rest (.object (before.reverse ++ entries))) frames rest := by
  match entries with
  | [] => exact absurd rfl nonempty
  | [(key, value)] =>
      rw [heightOfEntries] at shallow
      have read := readOn_value value (.object before key :: frames) (.closeObject :: rest)
        (by rw [List.length_cons]; omega)
      rw [entryTokensBefore, readOn_key, read, readOn, List.reverse_cons]
  | (key, value) :: second :: entries =>
      rw [heightOfEntries] at shallow
      have read := readOn_value value (.object before key :: frames)
        (.comma :: entryTokensBefore (second :: entries) (.closeObject :: rest))
        (by rw [List.length_cons]; omega)
      have readRest := readOn_entries (second :: entries) (List.cons_ne_nil _ _)
        ((key, value) :: before) frames rest (by omega)
      rw [entryTokensBefore, readOn_key, read, readOn, readRest, List.reverse_cons,
        List.append_assoc, List.singleton_append]
      exact fun impossible => nomatch impossible

end

theorem ofTokens_tokens {value : Json} (shallow : value.height ≤ maxNesting) :
    ofTokens value.tokens = .ok (value, []) := by
  rw [ofTokens, tokens, readOn_value value [] [] shallow, readOn]

/-- What is written is read back, in either layout and with blanks at its end. -/
theorem ofTokens_render {value : Json} (shallow : value.height ≤ maxNesting) (layout : Layout)
    {ending : String} (blank : ∀ c ∈ ending.toList, isBlank c = true) :
    ofTokens (lex (value.render layout ++ ending)) = .ok (value, []) := by
  rw [lex_render layout value blank, ofTokens_tokens shallow]

end EstreeLowering.Json
