import Mathlib.Data.List.Sort

namespace EstreeLowering

variable {α : Type} [DecidableEq α] {value : α} {values : List α}

theorem loop_eraseReps (first : α) (rest passed : List α) :
    List.eraseRepsBy.loop (· == ·) first rest passed =
      passed.reverse ++ (first :: rest).eraseReps := by
  induction rest generalizing first passed with
  | nil => simp [List.eraseReps, List.eraseRepsBy, List.eraseRepsBy.loop]
  | cons second rest ih =>
      rw [List.eraseReps, List.eraseRepsBy, List.eraseRepsBy.loop, List.eraseRepsBy.loop]
      split
      · rw [ih, ih, List.reverse_nil, List.nil_append]
      · rw [ih, ih, List.reverse_cons, List.append_assoc, List.reverse_singleton]

theorem eraseReps_cons_cons (first second : α) (rest : List α) :
    (first :: second :: rest).eraseReps =
      if first = second then (second :: rest).eraseReps
      else first :: (second :: rest).eraseReps := by
  rw [List.eraseReps, List.eraseRepsBy, List.eraseRepsBy.loop]
  split <;> rename_i same
  · obtain rfl := eq_of_beq same
    rw [if_pos rfl, loop_eraseReps, List.reverse_nil, List.nil_append]
  · rw [if_neg (ne_of_beq_false same), loop_eraseReps, List.reverse_singleton,
      List.singleton_append]

theorem mem_eraseReps : value ∈ values.eraseReps ↔ value ∈ values := by
  induction values with
  | nil => rfl
  | cons first rest ih =>
      cases rest with
      | nil => rfl
      | cons second rest =>
          rw [eraseReps_cons_cons]
          split
          · rename_i same
            rw [ih, same, List.mem_cons, List.mem_cons, List.mem_cons, or_self_left]
          · rw [List.mem_cons, ih, ← List.mem_cons]

theorem pairwise_eraseReps {rank : α → Nat} (injective : Function.Injective rank)
    (sorted : values.Pairwise fun value later => rank value ≤ rank later) :
    values.eraseReps.Pairwise fun value later => rank value < rank later := by
  induction values with
  | nil => exact .nil
  | cons first rest ih =>
      cases rest with
      | nil => exact List.pairwise_singleton _ _
      | cons second rest =>
          obtain ⟨least, sorted⟩ := List.pairwise_cons.mp sorted
          rw [eraseReps_cons_cons]
          split
          · exact ih sorted
          · rename_i other
            have next : rank first < rank second :=
              Nat.lt_of_le_of_ne (least second List.mem_cons_self) (injective.ne other)
            refine .cons (fun later member => ?_) (ih sorted)
            rcases List.mem_cons.mp (mem_eraseReps.mp member) with rfl | member
            · exact next
            · exact Nat.lt_of_lt_of_le next ((List.pairwise_cons.mp sorted).1 later member)

end EstreeLowering
