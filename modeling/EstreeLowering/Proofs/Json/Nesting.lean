import EstreeLowering.Json.Writer

namespace EstreeLowering.Json

mutual

theorem tokensBefore_append (value : Json) (front rest : List Token) :
    value.tokensBefore (front ++ rest) = value.tokensBefore front ++ rest := by
  match value with
  | .null | .boolean _ | .number _ | .string _ => rfl
  | .array items =>
      have inside := itemTokensBefore_append items (.closeArray :: front) rest
      exact congrArg (.openArray :: ·) inside
  | .object entries =>
      have inside := entryTokensBefore_append entries (.closeObject :: front) rest
      exact congrArg (.openObject :: ·) inside

theorem itemTokensBefore_append (items : List Json) (front rest : List Token) :
    itemTokensBefore items (front ++ rest) = itemTokensBefore items front ++ rest := by
  match items with
  | [] => rfl
  | [item] => exact tokensBefore_append item front rest
  | item :: second :: items =>
      have behind := itemTokensBefore_append (second :: items) front rest
      have here := tokensBefore_append item (.comma :: itemTokensBefore (second :: items) front)
        rest
      exact (congrArg (fun tokens => item.tokensBefore (.comma :: tokens)) behind).trans here

theorem entryTokensBefore_append (entries : List (String × Json)) (front rest : List Token) :
    entryTokensBefore entries (front ++ rest) = entryTokensBefore entries front ++ rest := by
  match entries with
  | [] => rfl
  | [(key, value)] =>
      exact congrArg (.string key :: .colon :: ·) (tokensBefore_append value front rest)
  | (key, value) :: second :: entries =>
      have behind := entryTokensBefore_append (second :: entries) front rest
      have here := tokensBefore_append value
        (.comma :: entryTokensBefore (second :: entries) front) rest
      have both :=
        (congrArg (fun tokens => value.tokensBefore (.comma :: tokens)) behind).trans here
      exact congrArg (.string key :: .colon :: ·) both

end

theorem tokensBefore_eq_append (value : Json) (rest : List Token) :
    value.tokensBefore rest = value.tokens ++ rest :=
  tokensBefore_append value [] rest

/-- Behind an item stands what ends the list, or a comma with the other items. -/
theorem itemTokensBefore_cons (item : Json) (items : List Json) (rest : List Token) :
    ∃ behind, itemTokensBefore (item :: items) rest = item.tokensBefore behind ∧
      (items = [] ∧ behind = rest ∨
        items ≠ [] ∧ behind = .comma :: itemTokensBefore items rest) := by
  cases items with
  | nil => exact ⟨_, rfl, .inl ⟨rfl, rfl⟩⟩
  | cons second items => exact ⟨_, rfl, .inr ⟨List.cons_ne_nil second items, rfl⟩⟩

theorem entryTokensBefore_cons (key : String) (value : Json) (entries : List (String × Json))
    (rest : List Token) :
    ∃ behind, entryTokensBefore ((key, value) :: entries) rest =
        .string key :: .colon :: value.tokensBefore behind ∧
      (entries = [] ∧ behind = rest ∨
        entries ≠ [] ∧ behind = .comma :: entryTokensBefore entries rest) := by
  cases entries with
  | nil => exact ⟨_, rfl, .inl ⟨rfl, rfl⟩⟩
  | cons second entries => exact ⟨_, rfl, .inr ⟨List.cons_ne_nil second entries, rfl⟩⟩

theorem sublist_itemTokensBefore (items : List Json) (rest : List Token) :
    (items.flatMap tokens).Sublist (itemTokensBefore items rest) := by
  match items with
  | [] => exact List.nil_sublist rest
  | [item] =>
      have here : item.tokens.Sublist (item.tokensBefore rest) := by
        rw [tokensBefore_eq_append]
        exact List.sublist_append_left item.tokens rest
      simpa [itemTokensBefore] using here
  | item :: second :: items =>
      have behind := sublist_itemTokensBefore (second :: items) rest
      rw [List.flatMap_cons, itemTokensBefore, tokensBefore_eq_append]
      · exact (List.Sublist.refl item.tokens).append (behind.cons .comma)
      · exact List.cons_ne_nil second items

theorem sublist_entryTokensBefore (entries : List (String × Json)) (rest : List Token) :
    (entries.flatMap fun entry => entry.2.tokens).Sublist (entryTokensBefore entries rest) := by
  match entries with
  | [] => exact List.nil_sublist rest
  | [(key, value)] =>
      have here : value.tokens.Sublist (value.tokensBefore rest) := by
        rw [tokensBefore_eq_append]
        exact List.sublist_append_left value.tokens rest
      simpa [entryTokensBefore] using (here.cons .colon).cons (.string key)
  | (key, value) :: second :: entries =>
      have behind := sublist_entryTokensBefore (second :: entries) rest
      rw [List.flatMap_cons, entryTokensBefore, tokensBefore_eq_append]
      · have both := (List.Sublist.refl value.tokens).append (behind.cons .comma)
        exact (both.cons .colon).cons (.string key)
      · exact List.cons_ne_nil second entries

/-- The tokens of the items of an array stand in its tokens in their order. -/
theorem sublist_tokens_array (items : List Json) :
    (items.flatMap tokens).Sublist (Json.array items).tokens := by
  rw [tokens, tokensBefore]
  exact (sublist_itemTokensBefore items [.closeArray]).cons .openArray

/-- The tokens of the values of an object stand in its tokens in the order of the entries. -/
theorem sublist_tokens_object (entries : List (String × Json)) :
    (entries.flatMap fun entry => entry.2.tokens).Sublist (Json.object entries).tokens := by
  rw [tokens, tokensBefore]
  exact (sublist_entryTokensBefore entries [.closeObject]).cons .openObject

end EstreeLowering.Json
