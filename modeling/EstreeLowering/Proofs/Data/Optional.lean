import Mathlib

namespace EstreeLowering

variable {α β : Type}

theorem toList_inj {item other : Option α} : item.toList = other.toList ↔ item = other := by
  constructor
  · intro same
    rw [← Option.head?_toList (o := item), same, Option.head?_toList]
  · exact congrArg Option.toList

theorem toList_append_cons {item final : Option α} {next : α} {later : List α} :
    item.toList ++ next :: later = final.toList ↔ item = none ∧ next :: later = final.toList := by
  cases item <;> cases final <;> simp

theorem map_toList_append_cons {item final next : Option α} {later : List (Option α)} :
    item.toList.map some ++ next :: later = final.toList.map some ↔
      item = none ∧ ∃ value, next = some value ∧ some value :: later = final.toList.map some := by
  cases item <;> cases final <;> cases next <;> simp

theorem lookup_eq_none_iff_not_mem [BEq α] [LawfulBEq α] {entries : List (α × β)} {key : α} :
    entries.lookup key = none ↔ key ∉ entries.map Prod.fst := by
  rw [List.lookup_eq_none_iff, List.mem_map, not_exists]
  simp only [bne_iff_ne, not_and, ne_comm]

end EstreeLowering
