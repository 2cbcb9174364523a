import EstreeLowering.CommandLine.Grammar
import EstreeLowering.Proofs.Data.Optional

namespace EstreeLowering

inductive Saying where
  | value (option : ValueOption) (text : String)
  | pretty
  | input (path : String)
deriving DecidableEq

namespace Saying

def valueOf? (option : ValueOption) : Saying → Option String
  | .value given text => if given = option then some text else none
  | _ => none

def path? : Saying → Option String
  | .input path => some path
  | _ => none

def valuesOf (option : ValueOption) (sayings : List Saying) : List String :=
  sayings.filterMap (valueOf? option)

def paths (sayings : List Saying) : List String :=
  sayings.filterMap path?

/-- Where a path is due, it is not empty. -/
def PathGiven : Saying → Prop
  | .value .output path | .value .config path | .input path => path ≠ ""
  | _ => True

@[simp] theorem valuesOf_cons_value (option : ValueOption) (text : String)
    (sayings : List Saying) :
    valuesOf option (.value option text :: sayings) = text :: valuesOf option sayings := by
  simp [valuesOf, valueOf?]

end Saying

open Saying

/-- No request for help or for the version. -/
def UsageError.IsMistake (reason : UsageError) : Prop :=
  reason ≠ .displayHelp ∧ reason ≠ .displayVersion

instance (reason : UsageError) : Decidable reason.IsMistake :=
  inferInstanceAs (Decidable (_ ∧ _))

namespace Arguments

def take (arguments : Arguments) : Saying → Except UsageError Arguments
  | .value option text => arguments.setValue option text
  | .pretty => arguments.setFlag .pretty
  | .input path => arguments.settle (.input path)

/-- What was said before and the sayings come to the arguments `final`. -/
@[mk_iff] structure Extends (start : Arguments) (sayings : List Saying) (final : Arguments) :
    Prop where
  input : start.input.toList ++ paths sayings = final.input.toList
  output : start.output.toList ++ valuesOf .output sayings = final.output.toList
  config : start.config.toList ++ valuesOf .config sayings = final.config.toList
  stages : start.stages ++ valuesOf .stage sayings = final.stages
  disable : start.disable ++ valuesOf .disable sayings = final.disable
  maxDepth : start.maxDepth.toList.map some ++ (valuesOf .maxDepth sayings).map depthOfText? =
    final.maxDepth.toList.map some
  pretty : start.pretty.toNat + sayings.count .pretty = final.pretty.toNat
  pathsGiven : ∀ saying ∈ sayings, saying.PathGiven

variable {start middle final : Arguments} {saying : Saying} {sayings : List Saying}

/-- What each saying is accepted with, and what it changes. -/
inductive Takes (start : Arguments) : Saying → Arguments → Prop
  | output {path} (first : start.output = none) (given : path ≠ "") :
      Takes start (.value .output path) { start with output := some path }
  | config {path} (first : start.config = none) (given : path ≠ "") :
      Takes start (.value .config path) { start with config := some path }
  | stage {name} : Takes start (.value .stage name) { start with stages := start.stages ++ [name] }
  | disable {name} :
      Takes start (.value .disable name) { start with disable := start.disable ++ [name] }
  | maxDepth {text depth} (first : start.maxDepth = none)
      (number : depthOfText? text = some depth) :
      Takes start (.value .maxDepth text) { start with maxDepth := some depth }
  | pretty (first : start.pretty = false) : Takes start .pretty { start with pretty := true }
  | input {path} (first : start.input = none) (given : path ≠ "") :
      Takes start (.input path) { start with input := some path }

section

variable {current : Option String} {path : String} {use : Option String → Arguments}

theorem setPath_eq_ok_iff :
    (do return use (← setPath current path) : Except UsageError Arguments) = .ok final ↔
      current = none ∧ path ≠ "" ∧ use (some path) = final := by
  unfold setPath
  cases current <;> by_cases empty : path = "" <;>
    simp [empty, pure, bind, Except.bind, Except.pure]

theorem isMistake_of_setPath {reason : UsageError}
    (refused : (do return use (← setPath current path)) = .error reason) : reason.IsMistake := by
  unfold setPath at refused
  split at refused
  · cases refused
    decide
  · split at refused
    · cases refused
      decide
    · cases refused

end

theorem take_eq_ok_iff : start.take saying = .ok middle ↔ start.Takes saying middle := by
  constructor
  · intro taken
    cases saying with
    | value option text =>
        cases option with
        | output =>
            obtain ⟨first, given, rfl⟩ := setPath_eq_ok_iff.mp taken
            exact .output first given
        | config =>
            obtain ⟨first, given, rfl⟩ := setPath_eq_ok_iff.mp taken
            exact .config first given
        | stage =>
            cases taken
            exact .stage
        | disable =>
            cases taken
            exact .disable
        | maxDepth =>
            cases first : start.maxDepth with
            | some depth => simp [take, setValue, first] at taken
            | none =>
                cases number : depthOfText? text with
                | none => simp [take, setValue, first, number] at taken
                | some depth =>
                    simp only [take, setValue, first, number] at taken
                    cases taken
                    exact .maxDepth first number
    | pretty =>
        cases first : start.pretty with
        | true => simp [take, setFlag, first] at taken
        | false =>
            simp only [take, setFlag, first] at taken
            cases taken
            exact .pretty first
    | input path =>
        obtain ⟨first, given, rfl⟩ := setPath_eq_ok_iff.mp taken
        exact .input first given
  · intro takes
    cases takes with
    | output first given | config first given | input first given =>
        exact setPath_eq_ok_iff.mpr ⟨first, given, rfl⟩
    | stage | disable => rfl
    | maxDepth first number => simp [take, setValue, first, number]
    | pretty first => simp [take, setFlag, first]

theorem isMistake_of_take {reason : UsageError} (refused : start.take saying = .error reason) :
    reason.IsMistake := by
  cases saying with
  | value option text =>
      cases option with
      | output | config => exact isMistake_of_setPath refused
      | stage | disable => cases refused
      | maxDepth =>
          simp only [take, setValue] at refused
          split at refused
          · cases refused
            decide
          · split at refused
            · cases refused
            · cases refused
              decide
  | pretty =>
      simp only [take, setFlag] at refused
      split at refused
      · cases refused
        decide
      · cases refused
  | input path => exact isMistake_of_setPath refused

theorem extends_nil : start.Extends [] final ↔ start = final := by
  have depths : start.maxDepth.toList.map some = final.maxDepth.toList.map some ↔
      start.maxDepth = final.maxDepth := by
    rw [(List.map_injective_iff.mpr (Option.some_injective _)).eq_iff, toList_inj]
  have flags : start.pretty.toNat = final.pretty.toNat ↔ start.pretty = final.pretty := by
    cases start.pretty <;> cases final.pretty <;> decide
  cases start
  cases final
  simp_all [extends_iff, valuesOf, paths, toList_inj]

theorem Takes.pathGiven (takes : start.Takes saying middle) : saying.PathGiven := by
  cases takes with
  | output _ given | config _ given | input _ given => exact given
  | stage | disable | maxDepth | pretty => trivial

theorem Takes.extends (takes : start.Takes saying middle)
    (extending : middle.Extends sayings final) : start.Extends (saying :: sayings) final := by
  have pathsGiven : ∀ said ∈ saying :: sayings, said.PathGiven :=
    List.forall_mem_cons.mpr ⟨takes.pathGiven, extending.pathsGiven⟩
  cases takes with
  | output first given =>
      have output := toList_append_cons.mpr ⟨first, extending.output⟩
      exact { extending with pathsGiven, output }
  | config first given =>
      have config := toList_append_cons.mpr ⟨first, extending.config⟩
      exact { extending with pathsGiven, config }
  | input first given =>
      have input := toList_append_cons.mpr ⟨first, extending.input⟩
      exact { extending with pathsGiven, input }
  | stage =>
      exact { extending with pathsGiven, stages := by simpa using extending.stages }
  | disable =>
      exact { extending with pathsGiven, disable := by simpa using extending.disable }
  | maxDepth first number =>
      have maxDepth := map_toList_append_cons.mpr ⟨first, _, number, extending.maxDepth⟩
      exact { extending with pathsGiven, maxDepth }
  | pretty first =>
      exact { extending with
        pathsGiven, pretty := by simpa [first, Nat.add_comm] using extending.pretty }

theorem Extends.exists_takes (extending : start.Extends (saying :: sayings) final) :
    ∃ middle, start.Takes saying middle ∧ middle.Extends sayings final := by
  obtain ⟨given, pathsGiven⟩ := List.forall_mem_cons.mp extending.pathsGiven
  cases saying with
  | value option text =>
      cases option with
      | output =>
          obtain ⟨first, output⟩ := toList_append_cons.mp extending.output
          exact ⟨_, .output first given, { extending with pathsGiven, output }⟩
      | config =>
          obtain ⟨first, config⟩ := toList_append_cons.mp extending.config
          exact ⟨_, .config first given, { extending with pathsGiven, config }⟩
      | stage =>
          refine ⟨_, .stage, { extending with pathsGiven, stages := ?_ }⟩
          simpa using extending.stages
      | disable =>
          refine ⟨_, .disable, { extending with pathsGiven, disable := ?_ }⟩
          simpa using extending.disable
      | maxDepth =>
          obtain ⟨first, depth, number, maxDepth⟩ := map_toList_append_cons.mp extending.maxDepth
          exact ⟨_, .maxDepth first number, { extending with pathsGiven, maxDepth }⟩
  | pretty =>
      have flags := extending.pretty
      rw [List.count_cons_self] at flags
      have first : start.pretty = false := by
        have := final.pretty.toNat_le
        cases same : start.pretty with
        | false => rfl
        | true => simp [same] at flags; omega
      refine ⟨_, .pretty first, { extending with pathsGiven, pretty := ?_ }⟩
      simpa [first, Nat.add_comm] using flags
  | input path =>
      obtain ⟨first, input⟩ := toList_append_cons.mp extending.input
      exact ⟨_, .input first given, { extending with pathsGiven, input }⟩

/-- The sayings are taken one after the other exactly if they come to arguments. -/
theorem foldlM_take_eq_ok_iff :
    sayings.foldlM take start = .ok final ↔ start.Extends sayings final := by
  induction sayings generalizing start with
  | nil => simp [extends_nil, pure, Except.pure]
  | cons saying sayings ih =>
      rw [List.foldlM_cons]
      constructor
      · intro taken
        cases first : start.take saying with
        | error reason => simp [first, bind, Except.bind] at taken
        | ok middle =>
            rw [first] at taken
            exact (take_eq_ok_iff.mp first).extends (ih.mp taken)
      · intro extending
        obtain ⟨middle, takes, extending⟩ := extending.exists_takes
        rw [take_eq_ok_iff.mpr takes]
        exact ih.mpr extending

/-- The sayings are those of the arguments, in some order that keeps the order of what may be
repeated. -/
structure SaidBy (arguments : Arguments) (sayings : List Saying) : Prop where
  input : paths sayings = arguments.input.toList
  output : valuesOf .output sayings = arguments.output.toList
  config : valuesOf .config sayings = arguments.config.toList
  stages : valuesOf .stage sayings = arguments.stages
  disable : valuesOf .disable sayings = arguments.disable
  maxDepth : valuesOf .maxDepth sayings =
    arguments.maxDepth.toList.map fun depth => toString depth.toNat
  pretty : sayings.count .pretty = arguments.pretty.toNat

/-- Something is said again that may be said only once. -/
def Repeats (sayings : List Saying) : Prop :=
  1 < (valuesOf .output sayings).length ∨ 1 < (valuesOf .config sayings).length ∨
    1 < (valuesOf .maxDepth sayings).length ∨ 1 < sayings.count .pretty ∨
    1 < (paths sayings).length

theorem depthOfText?_toString (depth : UInt32) :
    depthOfText? (toString depth.toNat) = some depth := by
  have written : (toString depth.toNat).toList = Nat.toDigits 10 depth.toNat := by simp
  have isDigits : ∀ c ∈ Nat.toDigits 10 depth.toNat, c.isDigit = true :=
    fun _ member => Nat.isDigit_of_mem_toDigits (by decide) (by decide) member
  have unsigned (c : Char) (noDigit : c.isDigit = false) (behind : List Char) :
      Nat.toDigits 10 depth.toNat ≠ c :: behind := by
    intro same
    have digit := isDigits c (same ▸ List.mem_cons_self)
    rw [noDigit] at digit
    cases digit
  have bound : depth.toNat < UInt32.size := depth.toNat_lt
  unfold depthOfText?
  rw [written]
  split
  rename_i negative digits sign
  split at sign
  · exact absurd ‹_› (unsigned '-' rfl _)
  · exact absurd ‹_› (unsigned '+' rfl _)
  · obtain ⟨rfl, rfl⟩ := Prod.mk.inj sign
    simpa [Nat.toDigits_ne_nil, Nat.ofDigitChars_ten_toDigits, bound] using isDigits

theorem SaidBy.extends {arguments : Arguments} (said : arguments.SaidBy sayings)
    (output : arguments.output ≠ some "") (config : arguments.config ≠ some "")
    (input : arguments.input ≠ some "") : empty.Extends sayings arguments where
  input := said.input
  output := said.output
  config := said.config
  stages := said.stages
  disable := said.disable
  maxDepth := by
    rw [said.maxDepth, List.map_map]
    simp only [Function.comp_def, depthOfText?_toString]
    rfl
  pretty := by simpa [empty] using said.pretty
  pathsGiven := by
    intro saying member
    cases saying with
    | value option text =>
        have among : text ∈ valuesOf option sayings :=
          List.mem_filterMap.mpr ⟨_, member, by simp [valueOf?]⟩
        cases option with
        | output =>
            rintro rfl
            exact output (Option.mem_toList.mp (said.output ▸ among))
        | config =>
            rintro rfl
            exact config (Option.mem_toList.mp (said.config ▸ among))
        | stage | disable | maxDepth => trivial
    | pretty => trivial
    | input path =>
        have among : path ∈ paths sayings := List.mem_filterMap.mpr ⟨_, member, rfl⟩
        rintro rfl
        exact input (Option.mem_toList.mp (said.input ▸ among))

theorem not_extends_of_repeats (repeats : Repeats sayings) : ¬ empty.Extends sayings final := by
  intro extending
  have once {α : Type} {item : Option α} {values : List α} (same : values = item.toList) :
      values.length ≤ 1 := by
    rw [same]
    cases item <;> simp
  have depths := congrArg List.length extending.maxDepth
  simp only [List.length_append, List.length_map] at depths
  rcases repeats with twice | twice | twice | twice | twice
  · exact absurd (once extending.output) (Nat.not_le.mpr twice)
  · exact absurd (once extending.config) (Nat.not_le.mpr twice)
  · have := once (rfl : final.maxDepth.toList = _)
    omega
  · have flags := extending.pretty
    have := final.pretty.toNat_le
    omega
  · exact absurd (once extending.input) (Nat.not_le.mpr twice)

end Arguments

end EstreeLowering
