import EstreeLowering.Rule.Basic
import EstreeLowering.Stage
import Mathlib.Data.List.Forall2

namespace EstreeLowering

/-- A capital ASCII letter, and the small one. -/
def IsLetterPair (capital small : Char) : Prop :=
  ('A' ≤ capital ∧ capital ≤ 'Z') ∧ small.toNat = capital.toNat + 32

/-- The same character, or the same ASCII letter in the other case. -/
inductive SameLetter : Char → Char → Prop
  | same (letter : Char) : SameLetter letter letter
  | raised {capital small : Char} (pair : IsLetterPair capital small) : SameLetter capital small
  | lowered {capital small : Char} (pair : IsLetterPair capital small) : SameLetter small capital

/-- The same letters in the same places. -/
def SameName (name other : String) : Prop :=
  List.Forall₂ SameLetter name.toList other.toList

theorem isCapital_iff {letter : Char} :
    'A' ≤ letter ∧ letter ≤ 'Z' ↔ 65 ≤ letter.toNat ∧ letter.toNat ≤ 90 := Iff.rfl

theorem toNat_toLower (letter : Char) :
    letter.toLower.toNat =
      if 65 ≤ letter.toNat ∧ letter.toNat ≤ 90 then letter.toNat + 32 else letter.toNat := by
  unfold Char.toLower
  split
  · rename_i capital
    have capital : 65 ≤ letter.toNat ∧ letter.toNat ≤ 90 := capital
    rw [if_pos capital]
    have small : letter.toNat + 32 < 2 ^ 32 := by omega
    exact (UInt32.toNat_add letter.val 32).trans (Nat.mod_eq_of_lt small)
  · rename_i other
    exact (if_neg other).symm

theorem IsLetterPair.toLower_eq {capital small : Char} (pair : IsLetterPair capital small) :
    capital.toLower = small.toLower := by
  obtain ⟨isCapital, distance⟩ := pair
  rw [isCapital_iff] at isCapital
  have noCapital : ¬ (65 ≤ small.toNat ∧ small.toNat ≤ 90) := by omega
  rw [← Char.toNat_inj, toNat_toLower, toNat_toLower, if_pos isCapital, if_neg noCapital, distance]

theorem sameLetter_iff {letter other : Char} :
    SameLetter letter other ↔ letter.toLower = other.toLower := by
  constructor
  · intro same
    cases same with
    | same => rfl
    | raised pair => exact pair.toLower_eq
    | lowered pair => exact pair.toLower_eq.symm
  · intro same
    rw [← Char.toNat_inj, toNat_toLower, toNat_toLower] at same
    by_cases capital : 65 ≤ letter.toNat ∧ letter.toNat ≤ 90 <;>
      by_cases capital' : 65 ≤ other.toNat ∧ other.toNat ≤ 90
    · rw [if_pos capital, if_pos capital', Nat.add_right_cancel_iff, Char.toNat_inj] at same
      exact same ▸ .same letter
    · rw [if_pos capital, if_neg capital'] at same
      exact .raised ⟨isCapital_iff.mpr capital, same.symm⟩
    · rw [if_neg capital, if_pos capital'] at same
      exact .lowered ⟨isCapital_iff.mpr capital', same⟩
    · rw [if_neg capital, if_neg capital', Char.toNat_inj] at same
      exact same ▸ .same letter

section

variable {name other third : String}

theorem sameName_iff_toLower :
    SameName name other ↔ name.toList.map Char.toLower = other.toList.map Char.toLower := by
  have letters : SameLetter = fun letter other => letter.toLower = other.toLower := by
    funext letter other
    exact propext sameLetter_iff
  rw [SameName, letters, ← List.forall₂_eq_eq_eq, List.forall₂_map_left_iff,
    List.forall₂_map_right_iff]

theorem sameName_iff : sameName name other = true ↔ SameName name other := by
  rw [sameName_iff_toLower, sameName, beq_iff_eq]

theorem SameName.symm (same : SameName name other) : SameName other name :=
  sameName_iff_toLower.mpr (sameName_iff_toLower.mp same).symm

theorem SameName.trans (first : SameName name other) (second : SameName other third) :
    SameName name third :=
  sameName_iff_toLower.mpr
    ((sameName_iff_toLower.mp first).trans (sameName_iff_toLower.mp second))

end

section

variable {α : Type} {nameOf : α → String} {candidates : List α} {query : String} {found : α}

theorem sameName_of_findNamed? (lookup : findNamed? nameOf candidates query = some found) :
    found ∈ candidates ∧ SameName (nameOf found) query := by
  have named : sameName (nameOf found) query = true := by
    rw [findNamed?] at lookup
    simpa using List.find?_some lookup
  exact ⟨List.mem_of_find?_eq_some lookup, sameName_iff.mp named⟩

/-- Among candidates of which no two have the same name, a look-up finds the one that has it. -/
theorem findNamed?_eq_some_iff
    (distinct : ∀ candidate ∈ candidates, ∀ other ∈ candidates,
      sameName (nameOf candidate) (nameOf other) = true → candidate = other) :
    findNamed? nameOf candidates query = some found ↔
      found ∈ candidates ∧ SameName (nameOf found) query := by
  constructor
  · exact sameName_of_findNamed?
  · rintro ⟨member, same⟩
    cases lookup : findNamed? nameOf candidates query with
    | none =>
        have absent := List.find?_eq_none.mp lookup found member
        exact absurd (sameName_iff.mpr same) absent
    | some other =>
        obtain ⟨member', named⟩ := sameName_of_findNamed? lookup
        have equal := distinct found member other member'
          (sameName_iff.mpr (same.trans named.symm))
        rw [equal]

end

theorem Rule.mem_all (rule : Rule) : rule ∈ Rule.all := by
  cases rule <;> decide

theorem Stage.ofName?_eq_some_iff {query : String} {stage : Stage} :
    Stage.ofName? query = some stage ↔ SameName stage.name query := by
  rw [Stage.ofName?, findNamed?_eq_some_iff (by decide)]
  exact and_iff_right stage.mem_all

theorem Rule.ofName?_eq_some_iff {query : String} {rule : Rule} :
    Rule.ofName? query = some rule ↔ SameName rule.name query := by
  rw [Rule.ofName?, findNamed?_eq_some_iff (by decide)]
  exact and_iff_right rule.mem_all

end EstreeLowering
