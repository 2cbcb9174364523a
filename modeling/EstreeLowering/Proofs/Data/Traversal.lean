import Mathlib

namespace EstreeLowering

variable {α β : Type} {reader : α → Option β} {items : List α} {results : List β}

theorem forall₂_of_mapM (accepted : items.mapM reader = some results) :
    List.Forall₂ (fun item result => reader item = some result) items results := by
  induction items generalizing results with
  | nil =>
      cases accepted
      exact .nil
  | cons item items ih =>
      rw [List.mapM_cons] at accepted
      simp only [Option.bind_eq_bind, Option.bind_eq_some_iff, Option.pure_def,
        Option.some.injEq] at accepted
      obtain ⟨result, first, others, rest, rfl⟩ := accepted
      exact .cons first (ih rest)

theorem exists_partner {α β : Type} {related : α → β → Prop} {items : List α} {results : List β}
    (each : List.Forall₂ related items results) :
    ∀ result ∈ results, ∃ item ∈ items, related item result := by
  induction each with
  | nil => exact fun _ none => nomatch none
  | @cons item result items results first _ ih =>
      refine List.forall_mem_cons.mpr ⟨⟨item, List.mem_cons_self, first⟩, ?_⟩
      intro other member
      obtain ⟨partner, given, paired⟩ := ih other member
      exact ⟨partner, List.mem_cons_of_mem item given, paired⟩

theorem exists_item_of_mapM (accepted : items.mapM reader = some results) :
    ∀ result ∈ results, ∃ item ∈ items, reader item = some result :=
  exists_partner (forall₂_of_mapM accepted)

theorem exists_result_of_mapM (accepted : items.mapM reader = some results) :
    ∀ item ∈ items, ∃ result ∈ results, reader item = some result := by
  have each : List.Forall₂ (fun result item => reader item = some result) results items :=
    .flip (forall₂_of_mapM accepted)
  exact exists_partner each

theorem forall_of_mapM {P : β → Prop} (accepted : items.mapM reader = some results)
    (reads : ∀ item result, reader item = some result → P result) :
    ∀ result ∈ results, P result := by
  intro result member
  obtain ⟨item, _, itemRead⟩ := exists_item_of_mapM accepted result member
  exact reads item result itemRead

theorem mapM_congr {reader' : α → Option β} (same : ∀ item ∈ items, reader item = reader' item) :
    items.mapM reader = items.mapM reader' := by
  induction items with
  | nil => rfl
  | cons item items ih =>
      rw [List.mapM_cons, List.mapM_cons, same item List.mem_cons_self,
        ih fun other member => same other (List.mem_cons_of_mem item member)]

theorem isSome_mapM : (items.mapM reader).isSome ↔ ∀ item ∈ items, (reader item).isSome := by
  induction items with
  | nil => simp
  | cons item items ih =>
      rw [List.mapM_cons, List.forall_mem_cons, ← ih]
      cases reader item <;> cases items.mapM reader <;> simp

theorem exists_mapM {γ : Type} {before : α → γ} {after : β → γ}
    (each : ∀ item ∈ items, ∃ result, reader item = some result ∧ after result = before item) :
    ∃ results, items.mapM reader = some results ∧ results.map after = items.map before := by
  induction items with
  | nil => exact ⟨[], rfl, rfl⟩
  | cons item items ih =>
      obtain ⟨⟨result, first, same⟩, others⟩ := List.forall_mem_cons.mp each
      obtain ⟨results, rest, sameRest⟩ := ih others
      refine ⟨result :: results, ?_, ?_⟩
      · rw [List.mapM_cons, first, rest]
        rfl
      · rw [List.map_cons, List.map_cons, same, sameRest]

theorem length_of_mapM (accepted : items.mapM reader = some results) :
    results.length = items.length :=
  (forall₂_of_mapM accepted).length_eq.symm

end EstreeLowering
