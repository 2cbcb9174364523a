import EstreeLowering.Json.Record
import EstreeLowering.Proofs.Data.Traversal
import EstreeLowering.Proofs.Json.Keys

namespace EstreeLowering.Json

variable {names : List String} {values : List (Option Json)}

theorem keys_presentEntries (names : List String) (values : List (Option Json)) :
    ((presentEntries names values).map (·.1)).Sublist names := by
  induction names generalizing values with
  | nil => exact List.Sublist.slnil
  | cons name names ih =>
      cases values with
      | nil => exact List.nil_sublist _
      | cons value values =>
          cases value with
          | none => exact (ih values).cons name
          | some value => exact (ih values).cons_cons name

theorem mem_presentEntries {key : String} {value : Json} :
    (key, value) ∈ presentEntries names values ↔ (key, some value) ∈ names.zip values := by
  rw [presentEntries, List.mem_filterMap]
  constructor
  · intro found
    obtain ⟨⟨name, given⟩, member, same⟩ := found
    cases given with
    | none => cases same
    | some given =>
        cases same
        exact member
  · exact fun member => ⟨(key, some value), member, rfl⟩

theorem filter_of_not_mem {entries : List (String × Json)} {name : String}
    (absent : name ∉ entries.map (·.1)) : entries.filter (·.1 == name) = [] := by
  refine List.filter_eq_nil_iff.mpr fun entry member same => absent ?_
  exact List.mem_map.mpr ⟨entry, member, beq_iff_eq.mp same⟩

section

variable {entries : List (String × Json)} {key : String} {value : Json}

theorem filter_key (nodup : (entries.map (·.1)).Nodup) :
    entries.filter (·.1 == key) = ((entries.lookup key).map (key, ·)).toList := by
  induction entries with
  | nil => rfl
  | cons entry entries ih =>
      obtain ⟨first, given⟩ := entry
      obtain ⟨alone, nodup⟩ := List.nodup_cons.mp nodup
      by_cases same : key = first
      · subst same
        rw [List.filter_cons_of_pos (by simp), List.lookup_cons_self, filter_of_not_mem alone]
        rfl
      · rw [List.filter_cons_of_neg (by simpa using Ne.symm same), ih nodup, List.lookup_cons,
          beq_false_of_ne same]

theorem lookup_of_mem (nodup : (entries.map (·.1)).Nodup) (member : (key, value) ∈ entries) :
    entries.lookup key = some value := by
  have found : (key, value) ∈ entries.filter (·.1 == key) :=
    List.mem_filter.mpr ⟨member, beq_self_eq_true key⟩
  rw [filter_key nodup, Option.mem_toList] at found
  obtain ⟨given, looked, same⟩ := Option.map_eq_some_iff.mp found
  cases same
  exact looked

theorem mem_of_lookup (looked : entries.lookup key = some value) : (key, value) ∈ entries := by
  obtain ⟨before, behind, rfl, _⟩ := List.lookup_eq_some_iff.mp looked
  exact List.mem_append_right before List.mem_cons_self

/-- What stands under a key does not depend on the order of distinct keys. -/
theorem lookup_eq_some_iff (nodup : (entries.map (·.1)).Nodup) :
    entries.lookup key = some value ↔ (key, value) ∈ entries :=
  ⟨mem_of_lookup, lookup_of_mem nodup⟩

theorem namedFields_of_nodup (names : List String) (nodup : (entries.map (·.1)).Nodup) :
    namedFields names entries = some (names.map fun name => entries.lookup name) := by
  induction names with
  | nil => rfl
  | cons name names ih =>
      unfold namedFields at ih ⊢
      rw [List.mapM_cons, ih, filter_key nodup, List.map_cons]
      cases entries.lookup name <;> rfl

theorem exists_entry_of_namedFields (named : namedFields names entries = some values) :
    ∀ value, some value ∈ values → ∃ key, (key, value) ∈ entries := by
  intro value member
  obtain ⟨name, _, found⟩ := exists_item_of_mapM named _ member
  split at found
  · cases found
  · rename_i entry only
    cases found
    have given : entry ∈ entries.filter (·.1 == name) := only ▸ List.mem_cons_self
    exact ⟨entry.1, List.mem_of_mem_filter given⟩
  · cases found

theorem mem_items_of_listedFields {items : List Json}
    (listed : listedFields names items = some values) :
    ∀ value, some value ∈ values → value ∈ items := by
  unfold listedFields at listed
  split at listed
  · cases listed
    intro value member
    simpa [List.mem_replicate] using member
  · cases listed

theorem length_namedFields (named : namedFields names entries = some values) :
    values.length = names.length :=
  length_of_mapM named

theorem length_listedFields {items : List Json} (listed : listedFields names items = some values) :
    values.length = names.length := by
  unfold listedFields at listed
  split at listed
  · cases listed
    rw [List.length_append, List.length_map, List.length_replicate]
    omega
  · cases listed

end

/-- The fields that are left to be read, none of them in front of the entries of their own. -/
theorem namedFields_append (front : List (String × Json)) (nodup : names.Nodup)
    (lengths : values.length = names.length) (fresh : ∀ name ∈ names, name ∉ front.map (·.1)) :
    namedFields names (front ++ presentEntries names values) = some values := by
  induction names generalizing front values with
  | nil =>
      rw [List.length_eq_zero_iff.mp lengths]
      rfl
  | cons name names ih =>
      cases values with
      | nil => cases lengths
      | cons value values =>
          obtain ⟨alone, nodup⟩ := List.nodup_cons.mp nodup
          have front_name := filter_of_not_mem (fresh name List.mem_cons_self)
          have behind_name : (presentEntries names values).filter (·.1 == name) = [] :=
            filter_of_not_mem fun member => alone ((keys_presentEntries names values).subset member)
          have fresh_rest : ∀ other ∈ names,
              other ∉ (front ++ (value.map (name, ·)).toList).map (·.1) := by
            intro other member present
            rw [List.map_append, List.mem_append] at present
            rcases present with present | present
            · exact fresh other (List.mem_cons_of_mem name member) present
            · cases value with
              | none => cases present
              | some value =>
                  cases List.mem_singleton.mp present
                  exact alone member
          have entries : presentEntries (name :: names) (value :: values) =
              (value.map (name, ·)).toList ++ presentEntries names values := by
            cases value <;> rfl
          have rest := ih _ nodup (Nat.succ.inj lengths) fresh_rest
          rw [List.append_assoc, ← entries] at rest
          unfold namedFields at rest ⊢
          rw [List.mapM_cons, rest, entries, List.filter_append, List.filter_append, front_name,
            behind_name]
          cases value with
          | none => rfl
          | some value =>
              have own : [(name, value)].filter (·.1 == name) = [(name, value)] := by simp
              simp only [Option.map_some, Option.toList_some, own]
              rfl

/-- Reading gives the values of the fields back, also behind an entry under another key. -/
theorem namedFields_presentEntries (nodup : names.Nodup) (lengths : values.length = names.length)
    {key : String} (other : key ∉ names) (value : Json) :
    namedFields names ((key, value) :: presentEntries names values) = some values := by
  refine namedFields_append [(key, value)] nodup lengths fun name member same => ?_
  cases List.mem_singleton.mp same
  exact other member

section

variable {α : Type} {read : Json → Option α}

theorem optionalText?_map (text : Option String) :
    optionalText? (text.map .string) = some text := by
  cases text <;> rfl

theorem optional?_of_ne_null {value : Json} (given : value ≠ .null) :
    optional? read (some value) = (read value).map some := by
  cases value with
  | null => exact absurd rfl given
  | _ => rfl

end

end EstreeLowering.Json
