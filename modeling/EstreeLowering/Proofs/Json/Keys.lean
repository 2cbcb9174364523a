import EstreeLowering.Json.Basic
import Mathlib

namespace EstreeLowering.Json

inductive DistinctKeys : Json → Prop
  | null : DistinctKeys .null
  | boolean {value} : DistinctKeys (.boolean value)
  | number {value} : DistinctKeys (.number value)
  | string {value} : DistinctKeys (.string value)
  | array {items} (within : ∀ item ∈ items, DistinctKeys item) : DistinctKeys (.array items)
  | object {entries} (nodup : (entries.map (·.1)).Nodup)
      (within : ∀ entry ∈ entries, DistinctKeys entry.2) : DistinctKeys (.object entries)

theorem distinctKeys_array_iff {items : List Json} :
    (Json.array items).DistinctKeys ↔ ∀ item ∈ items, item.DistinctKeys := by
  constructor
  · intro distinct
    cases distinct with
    | array within => exact within
  · exact .array

theorem distinctKeys_object_iff {entries : List (String × Json)} :
    (Json.object entries).DistinctKeys ↔
      (entries.map (·.1)).Nodup ∧ ∀ entry ∈ entries, entry.2.DistinctKeys := by
  constructor
  · intro distinct
    cases distinct with
    | object nodup within => exact ⟨nodup, within⟩
  · exact fun both => .object both.1 both.2

section

variable {α : Type} {key : String} {value : α}

theorem put_of_not_mem {entries : List (String × α)} (absent : key ∉ entries.map (·.1)) :
    put key value entries = entries ++ [(key, value)] := by
  induction entries with
  | nil => rfl
  | cons entry entries ih =>
      rw [List.map_cons, List.mem_cons, not_or] at absent
      rw [put, if_neg (Ne.symm absent.1), ih absent.2, List.cons_append]

theorem foldl_put {behind entries : List (String × α)}
    (nodup : ((behind ++ entries).map (·.1)).Nodup) :
    entries.foldl (fun merged entry => put entry.1 entry.2 merged) behind = behind ++ entries := by
  induction entries generalizing behind with
  | nil => rw [List.foldl_nil, List.append_nil]
  | cons entry entries ih =>
      have absent : entry.1 ∉ behind.map (·.1) := by
        rw [List.map_append, List.map_cons] at nodup
        exact fun present => (List.nodup_append.mp nodup).2.2 _ present _ List.mem_cons_self rfl
      have regroup : behind ++ entry :: entries = (behind ++ [entry]) ++ entries := by
        rw [List.append_assoc, List.singleton_append]
      rw [regroup] at nodup ⊢
      rw [List.foldl_cons, put_of_not_mem absent, ih nodup]

theorem mergeKeys_of_nodup {entries : List (String × α)} (nodup : (entries.map (·.1)).Nodup) :
    mergeKeys entries = entries :=
  foldl_put nodup

variable {entry : String × α} {entries : List (String × α)}

theorem mem_put (member : entry ∈ put key value entries) :
    entry = (key, value) ∨ entry ∈ entries := by
  induction entries with
  | nil => exact .inl (List.mem_singleton.mp member)
  | cons first entries ih =>
      unfold put at member
      split at member
      · rename_i same
        rcases List.mem_cons.mp member with rfl | later
        · exact .inl (congrArg (·, value) same)
        · exact .inr (List.mem_cons_of_mem first later)
      · rcases List.mem_cons.mp member with rfl | later
        · exact .inr List.mem_cons_self
        · exact (ih later).imp_right (List.mem_cons_of_mem first)

theorem keys_put_of_mem (present : key ∈ entries.map (·.1)) :
    (put key value entries).map (·.1) = entries.map (·.1) := by
  induction entries with
  | nil => cases present
  | cons first entries ih =>
      unfold put
      split
      · rfl
      · rename_i other
        rcases List.mem_cons.mp present with same | later
        · exact absurd same.symm other
        · rw [List.map_cons, List.map_cons, ih later]

theorem nodup_put (nodup : (entries.map (·.1)).Nodup) :
    ((put key value entries).map (·.1)).Nodup := by
  by_cases present : key ∈ entries.map (·.1)
  · rwa [keys_put_of_mem present]
  · rw [put_of_not_mem present, List.map_append]
    exact List.concat_eq_append ▸ nodup.concat present

theorem nodup_foldl_put {merged : List (String × α)} (nodup : (merged.map (·.1)).Nodup) :
    ((entries.foldl (fun merged entry => put entry.1 entry.2 merged) merged).map (·.1)).Nodup := by
  induction entries generalizing merged with
  | nil => exact nodup
  | cons first entries ih => exact ih (nodup_put nodup)

theorem nodup_mergeKeys (entries : List (String × α)) : ((mergeKeys entries).map (·.1)).Nodup :=
  nodup_foldl_put List.nodup_nil

theorem mem_foldl_put {merged : List (String × α)}
    (member : entry ∈ entries.foldl (fun merged entry => put entry.1 entry.2 merged) merged) :
    entry ∈ merged ∨ entry ∈ entries := by
  induction entries generalizing merged with
  | nil => exact .inl member
  | cons first entries ih =>
      rcases ih member with member | given
      · rcases mem_put member with same | member
        · exact .inr (same ▸ List.mem_cons_self)
        · exact .inl member
      · exact .inr (List.mem_cons_of_mem first given)

/-- Merging invents no entry. -/
theorem mem_of_mem_mergeKeys (member : entry ∈ mergeKeys entries) : entry ∈ entries :=
  (mem_foldl_put member).resolve_left List.not_mem_nil

end

mutual

theorem distinctKeys_merged (value : Json) : value.merged.DistinctKeys := by
  cases value with
  | null => exact .null
  | boolean => exact .boolean
  | number => exact .number
  | string => exact .string
  | array items => exact .array (distinctKeys_mergedItems items)
  | object entries =>
      exact .object (nodup_mergeKeys _) fun entry member =>
        distinctKeys_mergedEntries entries entry (mem_of_mem_mergeKeys member)

theorem distinctKeys_mergedItems (items : List Json) :
    ∀ item ∈ mergedItems items, item.DistinctKeys := by
  cases items with
  | nil => exact fun _ none => nomatch none
  | cons first items =>
      exact List.forall_mem_cons.mpr ⟨distinctKeys_merged first, distinctKeys_mergedItems items⟩

theorem distinctKeys_mergedEntries (entries : List (String × Json)) :
    ∀ entry ∈ mergedEntries entries, entry.2.DistinctKeys := by
  cases entries with
  | nil => exact fun _ none => nomatch none
  | cons first entries =>
      obtain ⟨key, value⟩ := first
      exact List.forall_mem_cons.mpr ⟨distinctKeys_merged value, distinctKeys_mergedEntries entries⟩

end

theorem exists_of_mem_mergedEntries {entry : String × Json} {entries : List (String × Json)}
    (member : entry ∈ mergedEntries entries) :
    ∃ value, (entry.1, value) ∈ entries ∧ value.merged = entry.2 := by
  induction entries with
  | nil => cases member
  | cons first entries ih =>
      rcases List.mem_cons.mp member with rfl | later
      · exact ⟨first.2, List.mem_cons_self, rfl⟩
      · obtain ⟨value, given, same⟩ := ih later
        exact ⟨value, List.mem_cons_of_mem first given, same⟩

/-- Merging makes nothing else a string. -/
theorem eq_string_of_merged {value : Json} {text : String} (same : value.merged = .string text) :
    value = .string text := by
  cases value <;> first | exact same | cases same

theorem mergedItems_of_forall {items : List Json} (unchanged : ∀ item ∈ items, item.merged = item) :
    mergedItems items = items := by
  induction items with
  | nil => rw [mergedItems]
  | cons item items ih =>
      rw [mergedItems, unchanged item List.mem_cons_self,
        ih fun other member => unchanged other (List.mem_cons_of_mem item member)]

theorem mergedEntries_of_forall {entries : List (String × Json)}
    (unchanged : ∀ entry ∈ entries, entry.2.merged = entry.2) :
    mergedEntries entries = entries := by
  induction entries with
  | nil => rw [mergedEntries]
  | cons entry entries ih =>
      rw [mergedEntries, unchanged entry List.mem_cons_self,
        ih fun other member => unchanged other (List.mem_cons_of_mem entry member)]

theorem DistinctKeys.merged {value : Json} (distinct : value.DistinctKeys) :
    value.merged = value := by
  induction distinct with
  | array _ ih => rw [Json.merged, mergedItems_of_forall ih]
  | object nodup _ ih => rw [Json.merged, mergedEntries_of_forall ih, mergeKeys_of_nodup nodup]
  | _ => rfl

theorem distinctKeys_iff_merged {value : Json} : value.DistinctKeys ↔ value.merged = value :=
  ⟨DistinctKeys.merged, fun unchanged => unchanged ▸ distinctKeys_merged value⟩

theorem DistinctKeys.mergeKeys_mergedEntries {entries : List (String × Json)}
    (distinct : (Json.object entries).DistinctKeys) :
    mergeKeys (mergedEntries entries) = entries := by
  have merged := distinct.merged
  rw [Json.merged] at merged
  exact Json.object.inj merged

theorem height_le_heightOfItems {item : Json} {items : List Json} (member : item ∈ items) :
    item.height ≤ heightOfItems items := by
  induction member with
  | head => exact Nat.le_max_left _ _
  | tail other _ ih => exact Nat.le_trans ih (Nat.le_max_right _ _)

theorem height_le_heightOfEntries {key : String} {value : Json} {entries : List (String × Json)}
    (member : (key, value) ∈ entries) : value.height ≤ heightOfEntries entries := by
  induction entries with
  | nil => cases member
  | cons entry entries ih =>
      rcases List.mem_cons.mp member with rfl | member
      · exact Nat.le_max_left _ _
      · exact Nat.le_trans (ih member) (Nat.le_max_right _ _)

theorem height_lt_array {item : Json} {items : List Json} (member : item ∈ items) :
    item.height < (Json.array items).height :=
  Nat.lt_succ_of_le (height_le_heightOfItems member)

theorem height_lt_object {key : String} {value : Json} {entries : List (String × Json)}
    (member : (key, value) ∈ entries) : value.height < (Json.object entries).height :=
  Nat.lt_succ_of_le (height_le_heightOfEntries member)

theorem heightOfEntries_le {entries : List (String × Json)} {height : Nat}
    (low : ∀ entry ∈ entries, entry.2.height ≤ height) : heightOfEntries entries ≤ height := by
  induction entries with
  | nil => exact Nat.zero_le height
  | cons entry entries ih =>
      obtain ⟨first, others⟩ := List.forall_mem_cons.mp low
      exact Nat.max_le.mpr ⟨first, ih others⟩

mutual

theorem height_merged_le (value : Json) : value.merged.height ≤ value.height := by
  cases value with
  | array items => exact Nat.succ_le_succ (height_mergedItems_le items)
  | object entries =>
      refine Nat.succ_le_succ (heightOfEntries_le fun entry member => ?_)
      have low := height_le_heightOfEntries (mem_of_mem_mergeKeys member)
      exact Nat.le_trans low (height_mergedEntries_le entries)
  | _ => exact Nat.le_refl _

theorem height_mergedItems_le (items : List Json) :
    heightOfItems (mergedItems items) ≤ heightOfItems items := by
  cases items with
  | nil => exact Nat.le_refl _
  | cons item items =>
      have first := height_merged_le item
      have others := height_mergedItems_le items
      simp only [mergedItems, heightOfItems]
      omega

theorem height_mergedEntries_le (entries : List (String × Json)) :
    heightOfEntries (mergedEntries entries) ≤ heightOfEntries entries := by
  cases entries with
  | nil => exact Nat.le_refl _
  | cons entry entries =>
      obtain ⟨key, value⟩ := entry
      have first := height_merged_le value
      have others := height_mergedEntries_le entries
      simp only [mergedEntries, heightOfEntries]
      omega

end

end EstreeLowering.Json
