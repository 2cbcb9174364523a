import EstreeLowering.Proofs.Json.Record

namespace EstreeLowering.Json

inductive Surrounding where
  | entry (before : List (String × Json)) (key : String) (behind : List (String × Json))
  | item (before behind : List Json)

def Surrounding.around : Surrounding → Json → Json
  | .entry before key behind, value => .object (before ++ (key, value) :: behind)
  | .item before behind, value => .array (before ++ value :: behind)

/-- The value with another one at a place, which what is around it gives from the outside in. -/
def plug (place : List Surrounding) (value : Json) : Json :=
  place.foldr Surrounding.around value

variable {place : List Surrounding} {value other : Json}

theorem plug_append (outer inner : List Surrounding) (value : Json) :
    plug (outer ++ inner) value = plug outer (plug inner value) :=
  List.foldr_append

theorem Surrounding.distinctKeys_of_around {outer : Surrounding}
    (distinct : (outer.around value).DistinctKeys) : value.DistinctKeys := by
  cases outer with
  | entry before key behind =>
      exact (distinctKeys_object_iff.mp distinct).2 (key, value) (by simp)
  | item before behind => exact distinctKeys_array_iff.mp distinct value (by simp)

theorem Surrounding.distinctKeys_around {outer : Surrounding}
    (distinct : (outer.around value).DistinctKeys) (otherDistinct : other.DistinctKeys) :
    (outer.around other).DistinctKeys := by
  cases outer with
  | entry before key behind =>
      obtain ⟨nodup, within⟩ := distinctKeys_object_iff.mp distinct
      refine distinctKeys_object_iff.mpr ⟨by simpa using nodup, ?_⟩
      simp only [List.forall_mem_append, List.forall_mem_cons] at within ⊢
      exact ⟨within.1, otherDistinct, within.2.2⟩
  | item before behind =>
      have within := distinctKeys_array_iff.mp distinct
      apply distinctKeys_array_iff.mpr
      simp only [List.forall_mem_append, List.forall_mem_cons] at within ⊢
      exact ⟨within.1, otherDistinct, within.2.2⟩

theorem distinctKeys_of_plug (distinct : (plug place value).DistinctKeys) :
    value.DistinctKeys := by
  induction place with
  | nil => exact distinct
  | cons outer place ih => exact ih (Surrounding.distinctKeys_of_around distinct)

theorem distinctKeys_plug (distinct : (plug place value).DistinctKeys)
    (otherDistinct : other.DistinctKeys) : (plug place other).DistinctKeys := by
  induction place with
  | nil => exact otherDistinct
  | cons outer place ih =>
      have inner := ih (Surrounding.distinctKeys_of_around distinct)
      exact Surrounding.distinctKeys_around distinct inner

section

variable {before behind : List (String × Json)} {key name : String}

theorem lookup_around (another : name ≠ key) (value : Json) :
    (before ++ (key, value) :: behind).lookup name = (before ++ behind).lookup name := by
  rw [List.lookup_append, List.lookup_append, List.lookup_cons, beq_false_of_ne another]

theorem key_ne_of_lookup (nodup : ((before ++ (key, value) :: behind).map (·.1)).Nodup)
    (looked : (before ++ behind).lookup name = some other) : name ≠ key := by
  rintro rfl
  have present : name ∈ (before ++ behind).map (·.1) := List.mem_map_of_mem (mem_of_lookup looked)
  have apart : (name :: (before ++ behind).map (·.1)).Nodup := by
    refine (List.Perm.nodup_iff ?_).mp nodup
    simp only [List.map_append, List.map_cons]
    exact List.perm_middle
  exact (List.nodup_cons.mp apart).1 present

end

end EstreeLowering.Json
