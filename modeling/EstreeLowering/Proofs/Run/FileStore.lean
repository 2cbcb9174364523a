import EstreeLowering.Run.FileStore
import Mathlib.Data.List.Basic

namespace EstreeLowering.FileStore

variable {store later : FileStore} {place here other above : List String} {path step text : String}

theorem isAbove_iff :
    store.isAbove place = true ↔
      place <+: store.home ∨ ∃ entry ∈ store.entries, place <+: entry.1 := by
  simp only [isAbove, Bool.or_eq_true, List.any_eq_true, List.isPrefixOf_iff_prefix]

/-- Something is at the root and at each place above something. -/
theorem isSome_contentAt_iff :
    (store.contentAt place).isSome = true ↔ place = [] ∨ store.isAbove place = true := by
  rw [contentAt]
  cases entry : store.entries.lookup place with
  | none => simp
  | some content =>
      obtain ⟨before, after, split, _⟩ := List.lookup_eq_some_iff.mp entry
      have member : (place, content) ∈ store.entries := by simp [split]
      have isAbove := isAbove_iff.mpr (.inr ⟨_, member, List.prefix_rfl⟩)
      simp [isAbove]

theorem isSome_contentAt_above (isThere : (store.contentAt here).isSome = true)
    (isPrefix : above <+: here) : (store.contentAt above).isSome = true := by
  rw [isSome_contentAt_iff, isAbove_iff] at isThere ⊢
  obtain rfl | isHome | ⟨entry, member, isEntry⟩ := isThere
  · exact .inl (List.prefix_nil.mp isPrefix)
  · exact .inr (.inl (isPrefix.trans isHome))
  · exact .inr (.inr ⟨entry, member, isPrefix.trans isEntry⟩)

/-- Something is at each place that the place lies in. -/
def Reached (store : FileStore) (place : List String) : Prop :=
  ∀ above, above <+: place → above ≠ place → (store.contentAt above).isSome = true

theorem reached_of_isSome (isThere : (store.contentAt here).isSome = true) :
    store.Reached here :=
  fun _ isPrefix _ => isSome_contentAt_above isThere isPrefix

theorem contentAt_of_look {content : FileContent} (found : store.look here = .ok content) :
    store.contentAt here = some content := by
  rw [look] at found
  split at found
  · cases found
  · split at found <;> simp_all

theorem reached_enter (entered : store.enter here step = .ok place) : store.Reached place := by
  rw [enter] at entered
  split at entered
  · cases entered
  · cases entered
  · next found =>
      have isThere : (store.contentAt here).isSome = true := by simp [contentAt_of_look found]
      cases entered
      split
      · exact reached_of_isSome isThere
      · split
        · exact reached_of_isSome (isSome_contentAt_above isThere here.dropLast_prefix)
        · intro above isPrefix isOther
          obtain rfl | isPrefix := List.prefix_concat_iff.mp isPrefix
          · exact absurd rfl isOther
          · exact isSome_contentAt_above isThere isPrefix

theorem reached_foldlM {steps : List String} (start : store.Reached here)
    (entered : steps.foldlM store.enter here = .ok place) : store.Reached place := by
  induction steps generalizing here with
  | nil =>
      cases entered
      exact start
  | cons step steps ih =>
      rw [List.foldlM_cons] at entered
      cases first : store.enter here step with
      | error fault =>
          rw [first] at entered
          cases entered
      | ok next =>
          rw [first] at entered
          exact ih (reached_enter first) entered

theorem reached_locate (located : store.locate path = .ok place) : store.Reached place := by
  rw [locate] at located
  split at located
  · cases located
  · split at located
    · cases located
    · apply reached_foldlM (reached_of_isSome _) located
      rw [isSome_contentAt_iff, isAbove_iff]
      split
      · exact .inl rfl
      · exact .inr (.inl List.prefix_rfl)

theorem contentAt_put_self (store : FileStore) (place : List String) (text : String) :
    (store.put place text).contentAt place = some (.file text.toUTF8) := by
  simp [contentAt, put]

theorem lookup_filter_of_ne {entries : List (List String × FileContent)}
    (different : other ≠ place) :
    (entries.filter (·.1 != place)).lookup other = entries.lookup other := by
  induction entries with
  | nil => rfl
  | cons entry entries ih =>
      rw [List.filter_cons]
      split
      · rw [List.lookup_cons, List.lookup_cons, ih]
      · next isPlace =>
          have isOther : (other == entry.1) = false := by simp_all
          rw [List.lookup_cons, isOther, ih]

theorem isAbove_put_iff :
    (store.put place text).isAbove other = true ↔
      store.isAbove other = true ∨ other <+: place := by
  simp only [isAbove_iff, put, List.mem_cons, List.mem_filter, bne_iff_ne, exists_eq_or_imp]
  constructor
  · rintro (isHome | isPlace | ⟨entry, ⟨member, _⟩, isEntry⟩)
    · exact .inl (.inl isHome)
    · exact .inr isPlace
    · exact .inl (.inr ⟨entry, member, isEntry⟩)
  · rintro ((isHome | ⟨entry, member, isEntry⟩) | isPlace)
    · exact .inl isHome
    · by_cases replaced : entry.1 = place
      · exact .inr (.inl (replaced ▸ isEntry))
      · exact .inr (.inr ⟨entry, ⟨member, replaced⟩, isEntry⟩)
    · exact .inr (.inl isPlace)

theorem contentAt_put_of_ne (reached : store.Reached place) (different : other ≠ place)
    (text : String) : (store.put place text).contentAt other = store.contentAt other := by
  have entries : (store.put place text).entries.lookup other = store.entries.lookup other := by
    rw [put, List.lookup_cons, beq_eq_false_iff_ne.mpr different, lookup_filter_of_ne different]
  -- A new entry makes directories of the places above it. The path to it went through these, so
  -- something was there before.
  have directories : other = [] ∨ (store.put place text).isAbove other = true ↔
      other = [] ∨ store.isAbove other = true := by
    have through (isPlace : other <+: place) :=
      isSome_contentAt_iff.mp (reached _ isPlace different)
    rw [isAbove_put_iff]
    tauto
  simp only [contentAt, entries, Bool.or_eq_true, List.isEmpty_iff, directories]

theorem exists_put_of_writeText (written : store.writeText path text = .ok later) :
    ∃ place, store.locate path = .ok place ∧ later = store.put place text := by
  rw [writeText] at written
  split at written
  · cases written
  · next place located =>
      refine ⟨place, located, ?_⟩
      split at written
      · cases written
      · split at written <;> cases written <;> rfl

end EstreeLowering.FileStore
