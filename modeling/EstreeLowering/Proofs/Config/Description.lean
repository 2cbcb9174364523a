import EstreeLowering.Config.File
import EstreeLowering.Proofs.Data.Optional
import EstreeLowering.Proofs.Json.Record

namespace EstreeLowering

def OrNull {α : Type} (isPart : Json → α → Prop) (value : Json) : Option α → Prop
  | none => value = .null
  | some part => isPart value part

def IsNames (value : Json) (names : List String) : Prop :=
  value = .array (names.map .string)

def IsDepth (value : Json) (depth : UInt32) : Prop :=
  ∃ inRange, value = .number (.integer depth.toNat inRange)

namespace ConfigKey

/-- Under that key the value says what the file has. -/
def Holds : ConfigKey → Json → ConfigFile → Prop
  | .stages, value, file => OrNull IsNames value file.stages
  | .disabledRules, value, file => IsNames value file.disabledRules
  | .maxDepth, value, file => OrNull IsDepth value file.maxDepth

def Same : ConfigKey → ConfigFile → ConfigFile → Prop
  | .stages, file, other => file.stages = other.stages
  | .disabledRules, file, other => file.disabledRules = other.disabledRules
  | .maxDepth, file, other => file.maxDepth = other.maxDepth

/-- Under that key the file has what is given, and what `start` has if nothing is given. -/
def Has (key : ConfigKey) (start : ConfigFile) (given : Option Json) (file : ConfigFile) : Prop :=
  match given with
  | some value => key.Holds value file
  | none => key.Same start file

def copy : ConfigKey → ConfigFile → ConfigFile → ConfigFile
  | .stages, source, file => { file with stages := source.stages }
  | .disabledRules, source, file => { file with disabledRules := source.disabledRules }
  | .maxDepth, source, file => { file with maxDepth := source.maxDepth }

end ConfigKey

namespace ConfigFile

/-- The file has what is given for each key, and what `start` has where nothing is given. -/
def Given (start : ConfigFile) (given : ConfigKey → Option Json) (file : ConfigFile) : Prop :=
  ∀ key : ConfigKey, key.Has start (given key) file

/-- An object with known keys, none of them twice, or an array of at most as many values, which
stand for those under the keys in order. -/
inductive Describes : Json → ConfigFile → Prop
  | object {entries file} (once : (entries.map Prod.fst).Nodup)
      (known : ∀ name ∈ entries.map Prod.fst, ∃ key : ConfigKey, key.name = name)
      (given : Given empty (fun key => entries.lookup key.name) file) :
      Describes (.object entries) file
  | array {items file} (few : items.length ≤ ConfigKey.all.length)
      (given : Given empty (fun key => items[ConfigKey.all.idxOf key]?) file) :
      Describes (.array items) file

/-- From `start` on, the entries, with keys that are still open, come to the file. -/
structure TakesEntries (start : ConfigFile) (openKeys : List ConfigKey)
    (entries : List (String × Json)) (file : ConfigFile) : Prop where
  once : (entries.map Prod.fst).Nodup
  known : ∀ name ∈ entries.map Prod.fst, ∃ key ∈ openKeys, key.name = name
  given : Given start (fun key => entries.lookup key.name) file

/-- The value under that key is all that takes `start` to the file. -/
structure Takes (start : ConfigFile) (key : ConfigKey) (value : Json) (file : ConfigFile) :
    Prop where
  holds : key.Holds value file
  others : ∀ other ≠ key, other.Same start file

end ConfigFile

open ConfigFile

namespace ConfigKey

variable {key other : ConfigKey} {file file' file'' : ConfigFile} {value : Json}

theorem name_injective : Function.Injective name := by
  intro key other same
  cases key <;> cases other <;> first | rfl | simp [name] at same

theorem mem_all (key : ConfigKey) : key ∈ all := by
  cases key <;> decide

theorem nodup_all : all.Nodup := by
  decide

theorem nodup_names : (all.map name).Nodup :=
  nodup_all.map name_injective

theorem Same.refl (key : ConfigKey) (file : ConfigFile) : key.Same file file := by
  cases key <;> rfl

theorem Same.symm (same : key.Same file file') : key.Same file' file := by
  cases key <;> exact Eq.symm same

theorem Same.trans (same : key.Same file file') (same' : key.Same file' file'') :
    key.Same file file'' := by
  cases key <;> exact Eq.trans same same'

theorem same_copy (key : ConfigKey) (file file' : ConfigFile) :
    key.Same file (key.copy file file') := by
  cases key <;> rfl

theorem same_copy_of_ne (apart : other ≠ key) (file file' : ConfigFile) :
    other.Same file' (key.copy file file') := by
  cases key <;> cases other <;> first | rfl | exact absurd rfl apart

theorem Holds.congr (holds : key.Holds value file) (same : key.Same file file') :
    key.Holds value file' := by
  cases key <;> simp_all [Holds, Same]

theorem isNames_unique {names others : List String} (first : IsNames value names)
    (second : IsNames value others) : names = others := by
  have same := Json.array.inj (first.symm.trans second)
  exact List.map_injective_iff.mpr (fun _ _ => Json.string.inj) same

theorem isDepth_unique {depth depth' : UInt32} (first : IsDepth value depth)
    (second : IsDepth value depth') : depth = depth' := by
  obtain ⟨_, rfl⟩ := first
  obtain ⟨_, same⟩ := second
  have numbers := Json.Number.integer.inj (Json.number.inj same)
  exact UInt32.toNat_inj.mp (by exact_mod_cast numbers)

theorem orNull_iff_of_ne {α : Type} {isPart : Json → α → Prop} {part : Option α}
    (present : value ≠ .null) :
    OrNull isPart value part ↔ ∃ given, part = some given ∧ isPart value given := by
  cases part with
  | none => simp [OrNull, present]
  | some given => simp [OrNull]

theorem orNull_unique {α : Type} {isPart : Json → α → Prop} {part part' : Option α}
    (notNull : ∀ part, ¬ isPart .null part)
    (unique : ∀ part part', isPart value part → isPart value part' → part = part')
    (first : OrNull isPart value part) (second : OrNull isPart value part') : part = part' := by
  cases part with
  | none =>
      obtain rfl : value = .null := first
      cases part' with
      | none => rfl
      | some part' => exact absurd second (notNull part')
  | some part =>
      cases part' with
      | none =>
          obtain rfl : value = .null := second
          exact absurd first (notNull part)
      | some part' => rw [unique part part' first second]

/-- A value means one thing only. -/
theorem Holds.same (holds : key.Holds value file) (holds' : key.Holds value file') :
    key.Same file file' := by
  cases key with
  | stages => exact orNull_unique nofun (fun _ _ => isNames_unique) holds holds'
  | disabledRules => exact isNames_unique holds holds'
  | maxDepth =>
      have notNull (depth : UInt32) : ¬ IsDepth .null depth := by
        rintro ⟨_, impossible⟩
        cases impossible
      exact orNull_unique notNull (fun _ _ => isDepth_unique) holds holds'

theorem Has.same {given : Option Json} (has : key.Has file'' given file)
    (has' : key.Has file'' given file') : key.Same file file' := by
  cases given with
  | some value => exact Holds.same has has'
  | none => exact (Same.symm has).trans has'

theorem Has.of_same {given : Option Json} (has : key.Has file given file'')
    (same : key.Same file' file) : key.Has file' given file'' := by
  cases given with
  | some value => exact has
  | none => exact same.trans has

end ConfigKey

namespace ConfigFile

variable {start middle file file' : ConfigFile} {key : ConfigKey} {value : Json}
  {entries : List (String × Json)} {openKeys : List ConfigKey}

theorem ext_of_same (same : ∀ key : ConfigKey, key.Same file file') : file = file' := by
  cases file
  cases file'
  rw [mk.injEq]
  exact ⟨same .stages, same .disabledRules, same .maxDepth⟩

theorem Given.unique {given : ConfigKey → Option Json} (first : Given start given file)
    (second : Given start given file') : file = file' :=
  ext_of_same fun key => (first key).same (second key)

theorem takes_iff :
    Takes start key value file ↔ key.Holds value file ∧ key.copy file start = file := by
  constructor
  · rintro ⟨holds, others⟩
    refine ⟨holds, ext_of_same fun other => ?_⟩
    by_cases apart : other = key
    · subst apart
      exact (ConfigKey.same_copy other file start).symm
    · exact (ConfigKey.same_copy_of_ne apart file start).symm.trans (others other apart)
  · rintro ⟨holds, same⟩
    refine ⟨holds, fun other apart => ?_⟩
    have kept := ConfigKey.same_copy_of_ne apart file start
    rwa [same] at kept

theorem Takes.unique (first : Takes start key value file) (second : Takes start key value file') :
    file = file' := by
  apply ext_of_same
  intro other
  by_cases apart : other = key
  · subst apart
    exact first.holds.same second.holds
  · exact (first.others other apart).symm.trans (second.others other apart)

theorem takesEntries_nil : TakesEntries start openKeys [] file ↔ start = file := by
  constructor
  · intro takes
    exact ext_of_same takes.given
  · rintro rfl
    exact ⟨List.nodup_nil, nofun, fun key => .refl key start⟩

theorem lookup_cons_of_ne {other : ConfigKey} (apart : other ≠ key) :
    ((key.name, value) :: entries).lookup other.name = entries.lookup other.name := by
  rw [List.lookup_cons, beq_false_of_ne (ConfigKey.name_injective.ne apart)]

/-- The first entry is taken, and then the others. -/
theorem given_cons (unrepeated : key.name ∉ entries.map Prod.fst) :
    Given start (fun other => ((key.name, value) :: entries).lookup other.name) file ↔
      ∃ middle, Takes start key value middle ∧
        Given middle (fun other => entries.lookup other.name) file := by
  have missing := lookup_eq_none_iff_not_mem.mpr unrepeated
  constructor
  · intro given
    have here : key.Has start (((key.name, value) :: entries).lookup key.name) file := given key
    rw [List.lookup_cons_self] at here
    refine ⟨key.copy file start, ⟨?_, ?_⟩, fun other => ?_⟩
    · exact here.congr (ConfigKey.same_copy key file start)
    · exact fun other apart => ConfigKey.same_copy_of_ne apart file start
    · beta_reduce
      by_cases apart : other = key
      · subst apart
        rw [missing]
        exact (ConfigKey.same_copy other file start).symm
      · rw [← lookup_cons_of_ne apart]
        exact (given other).of_same (ConfigKey.same_copy_of_ne apart file start).symm
  · rintro ⟨middle, ⟨holds, others⟩, given⟩ other
    beta_reduce
    by_cases apart : other = key
    · subst apart
      have there : other.Has middle (entries.lookup other.name) file := given other
      rw [missing] at there
      rw [List.lookup_cons_self]
      exact holds.congr there
    · rw [lookup_cons_of_ne apart]
      exact (given other).of_same (others other apart)

theorem takesEntries_cons (isOpen : key ∈ openKeys) (nodup : openKeys.Nodup) :
    TakesEntries start openKeys ((key.name, value) :: entries) file ↔
      ∃ middle, Takes start key value middle ∧
        TakesEntries middle (openKeys.erase key) entries file := by
  constructor
  · rintro ⟨once, known, given⟩
    obtain ⟨unrepeated, once⟩ := List.nodup_cons.mp once
    obtain ⟨middle, takes, given⟩ := (given_cons unrepeated).mp given
    refine ⟨middle, takes, once, ?_, given⟩
    intro name member
    obtain ⟨other, isOpen, rfl⟩ := known name (List.mem_cons_of_mem _ member)
    have apart : other ≠ key := by
      rintro rfl
      exact unrepeated member
    exact ⟨other, (List.mem_erase_of_ne apart).mpr isOpen, rfl⟩
  · rintro ⟨middle, takes, once, known, given⟩
    have unrepeated : key.name ∉ entries.map Prod.fst := by
      intro member
      obtain ⟨other, isOpen, same⟩ := known _ member
      rw [ConfigKey.name_injective same] at isOpen
      exact nodup.not_mem_erase isOpen
    refine ⟨List.nodup_cons.mpr ⟨unrepeated, once⟩, ?_,
      (given_cons unrepeated).mpr ⟨middle, takes, given⟩⟩
    rw [List.map_cons, List.forall_mem_cons]
    refine ⟨⟨key, isOpen, rfl⟩, fun name member => ?_⟩
    obtain ⟨other, isOpen, same⟩ := known name member
    exact ⟨other, List.mem_of_mem_erase isOpen, same⟩

theorem describes_object_iff :
    Describes (.object entries) file ↔ TakesEntries empty ConfigKey.all entries file := by
  constructor
  · rintro ⟨once, known, given⟩
    refine ⟨once, fun name member => ?_, given⟩
    obtain ⟨key, same⟩ := known name member
    exact ⟨key, key.mem_all, same⟩
  · rintro ⟨once, known, given⟩
    refine .object once (fun name member => ?_) given
    obtain ⟨key, _, same⟩ := known name member
    exact ⟨key, same⟩

theorem lookup_zip_names (items : List Json) (key : ConfigKey) :
    ((ConfigKey.all.map ConfigKey.name).zip items).lookup key.name =
      items[ConfigKey.all.idxOf key]? := by
  rcases items with _ | ⟨first, _ | ⟨second, _ | ⟨third, items⟩⟩⟩ <;> cases key <;> rfl

theorem map_fst_zip_sublist {α β : Type} (names : List α) (items : List β) :
    ((names.zip items).map Prod.fst).Sublist names := by
  induction names generalizing items with
  | nil => exact List.Sublist.slnil
  | cons name names ih =>
      cases items with
      | nil => exact List.nil_sublist _
      | cons item items => exact (ih items).cons_cons name

/-- An array is read as the object that has its items under the keys in order. -/
theorem describes_array_iff {items : List Json} :
    Describes (.array items) file ↔ items.length ≤ ConfigKey.all.length ∧
      TakesEntries empty ConfigKey.all ((ConfigKey.all.map ConfigKey.name).zip items) file := by
  constructor
  · rintro ⟨⟩
    rename_i few given
    have keys := map_fst_zip_sublist (ConfigKey.all.map ConfigKey.name) items
    refine ⟨few, keys.nodup ConfigKey.nodup_names, fun name member => ?_, fun key => ?_⟩
    · exact List.mem_map.mp (keys.subset member)
    · beta_reduce
      rw [lookup_zip_names]
      exact given key
  · rintro ⟨few, takes⟩
    refine .array few fun key => ?_
    beta_reduce
    rw [← lookup_zip_names]
    exact takes.given key

theorem Describes.unique (first : Describes value file) (second : Describes value file') :
    file = file' := by
  cases first with
  | object _ _ given =>
      cases second with
      | object _ _ given' => exact given.unique given'
  | array _ given =>
      cases second with
      | array _ given' => exact given.unique given'

/-- The order of the entries means nothing. -/
theorem Describes.perm {entries' : List (String × Json)}
    (describes : Describes (.object entries) file) (perm : entries.Perm entries') :
    Describes (.object entries') file := by
  cases describes with
  | object once known given =>
      have once' : (entries'.map Prod.fst).Nodup := (perm.map Prod.fst).nodup once
      refine .object once' (fun name member => ?_) fun key => ?_
      · exact known name ((perm.map Prod.fst).mem_iff.mpr member)
      · have same : entries'.lookup key.name = entries.lookup key.name := by
          ext value
          rw [Json.lookup_eq_some_iff once', Json.lookup_eq_some_iff once, perm.mem_iff]
        beta_reduce
        rw [same]
        exact given key

theorem describes_toJson (file : ConfigFile) : Describes file.toJson file := by
  refine .object ?_ (fun name member => ?_) fun key => ?_
  · exact ConfigKey.nodup_names
  · obtain ⟨key, _, same⟩ := List.mem_map.mp
      (show name ∈ ConfigKey.all.map ConfigKey.name from member)
    exact ⟨key, same⟩
  · cases key with
    | stages =>
        change OrNull IsNames ((file.stages.map namesToJson).getD .null) file.stages
        cases file.stages <;> exact rfl
    | disabledRules => exact rfl
    | maxDepth =>
        change OrNull IsDepth ((file.maxDepth.map depthToJson).getD .null) file.maxDepth
        cases file.maxDepth with
        | none => rfl
        | some depth => exact ⟨_, rfl⟩

end ConfigFile

end EstreeLowering
