import EstreeLowering.CommandLine.Arguments
import EstreeLowering.Proofs.Config.Names
import EstreeLowering.Proofs.Data.Repeats

namespace EstreeLowering

/-- A name that stands in a configuration file or on a command line, and of what it is to be. -/
inductive Mention where
  | stage (name : String)
  | rule (name : String)

namespace Mention

def Known : Mention → Prop
  | .stage name => ∃ stage : Stage, SameName stage.name name
  | .rule name => ∃ rule : Rule, SameName rule.name name

def failure : Mention → Failure
  | .stage name => .unknownStage name
  | .rule name => .unknownRule name

theorem known_stage_iff {name : String} :
    Known (.stage name) ↔ (Stage.ofName? name).isSome = true := by
  simp only [Known, Option.isSome_iff_exists, Stage.ofName?_eq_some_iff]

theorem known_rule_iff {name : String} :
    Known (.rule name) ↔ (Rule.ofName? name).isSome = true := by
  simp only [Known, Option.isSome_iff_exists, Rule.ofName?_eq_some_iff]

instance : DecidablePred Known
  | .stage _ => decidable_of_iff' _ known_stage_iff
  | .rule _ => decidable_of_iff' _ known_rule_iff

def firstUnknown? (mentions : List Mention) : Option Mention :=
  mentions.find? fun mention => ¬ mention.Known

/-- The value, unless one of the names is unknown. -/
def checked (mentions : List Mention) (value : α) : Except Failure α :=
  match firstUnknown? mentions with
  | some mention => .error mention.failure
  | none => .ok value

variable {α β : Type} {mentions others : List Mention} {mention : Mention} {value : α}

theorem firstUnknown?_eq_none_iff :
    firstUnknown? mentions = none ↔ ∀ mention ∈ mentions, mention.Known := by
  simp [firstUnknown?]

theorem firstUnknown?_eq_some_iff :
    firstUnknown? mentions = some mention ↔ ∃ before after,
      mentions = before ++ mention :: after ∧ (∀ earlier ∈ before, earlier.Known) ∧
        ¬ mention.Known := by
  simp only [firstUnknown?, List.find?_eq_some_iff_append, decide_not, Bool.not_eq_true',
    decide_eq_false_iff_not, Bool.not_not, decide_eq_true_eq]
  constructor
  · rintro ⟨unknown, before, after, split, known⟩
    exact ⟨before, after, split, known, unknown⟩
  · rintro ⟨before, after, split, known, unknown⟩
    exact ⟨unknown, before, after, split, known⟩

theorem firstUnknown?_append (mentions others : List Mention) :
    firstUnknown? (mentions ++ others) = (firstUnknown? mentions).or (firstUnknown? others) := by
  simp only [firstUnknown?, List.find?_append]

theorem checked_of_some (first : firstUnknown? mentions = some mention) (value : α) :
    checked mentions value = .error mention.failure := by
  simp only [checked, first]

theorem checked_of_none (first : firstUnknown? mentions = none) (value : α) :
    checked mentions value = .ok value := by
  simp only [checked, first]

theorem checked_eq_ok_iff {result : α} :
    checked mentions value = .ok result ↔
      (∀ mention ∈ mentions, mention.Known) ∧ value = result := by
  rw [← firstUnknown?_eq_none_iff, checked]
  cases firstUnknown? mentions <;> simp

theorem checked_eq_error_iff {failure : Failure} :
    checked mentions value = .error failure ↔ ∃ before mention after,
      mentions = before ++ mention :: after ∧ (∀ earlier ∈ before, earlier.Known) ∧
        ¬ mention.Known ∧ failure = mention.failure := by
  constructor
  · intro failed
    cases first : firstUnknown? mentions with
    | none =>
        rw [checked_of_none first] at failed
        cases failed
    | some mention =>
        obtain ⟨before, after, split, known, unknown⟩ := firstUnknown?_eq_some_iff.mp first
        rw [checked_of_some first] at failed
        cases failed
        exact ⟨before, mention, after, split, known, unknown, rfl⟩
  · rintro ⟨before, mention, after, split, known, unknown, rfl⟩
    exact checked_of_some (firstUnknown?_eq_some_iff.mpr ⟨before, after, split, known, unknown⟩) _

theorem checked_cons_of_known (known : mention.Known) (mentions : List Mention) (value : α) :
    checked (mention :: mentions) value = checked mentions value := by
  simp [checked, firstUnknown?, known]

theorem checked_cons_of_unknown (unknown : ¬ mention.Known) (mentions : List Mention) (value : α) :
    checked (mention :: mentions) value = .error mention.failure := by
  simp [checked, firstUnknown?, unknown]

/-- What goes on with a value goes on checking names. -/
theorem bind_checked {next : α → Except Failure β} {result : β}
    (continued : next value = checked others result) :
    checked mentions value >>= next = checked (mentions ++ others) result := by
  simp only [checked, firstUnknown?_append] at continued ⊢
  cases firstUnknown? mentions with
  | some mention => rfl
  | none => exact continued

theorem bind_checked_ok {next : α → Except Failure β} {result : β}
    (last : next value = .ok result) :
    checked mentions value >>= next = checked mentions result := by
  have continued : next value = checked [] result := last
  rw [bind_checked continued, List.append_nil]

theorem mapM_eq_checked {find : String → Option α} {mentioned : String → Mention}
    {lookUp : String → Except Failure α}
    (known : ∀ name, (mentioned name).Known ↔ (find name).isSome = true)
    (found : ∀ name, lookUp name = (find name).elim (.error (mentioned name).failure) .ok)
    (names : List String) :
    names.mapM lookUp = checked (names.map mentioned) (names.filterMap find) := by
  induction names with
  | nil => rfl
  | cons name names ih =>
      rw [List.mapM_cons, ih, List.map_cons, found]
      cases lookup : find name with
      | none =>
          have unknown : ¬ (mentioned name).Known := by simp [known, lookup]
          rw [checked_cons_of_unknown unknown]
          rfl
      | some result =>
          have isKnown : (mentioned name).Known := by simp [known, lookup]
          rw [checked_cons_of_known isKnown, List.filterMap_cons, lookup]
          exact bind_checked_ok rfl

end Mention

theorem Stage.resolve_eq (names : List String) :
    Stage.resolve names =
      Mention.checked (names.map .stage) (Stage.inOrder (names.filterMap Stage.ofName?)) := by
  rw [Stage.resolve, Mention.mapM_eq_checked (fun _ => Mention.known_stage_iff)]
  · exact Mention.bind_checked_ok rfl
  · intro name
    cases Stage.ofName? name <;> rfl

theorem Rule.resolve_eq (names : List String) :
    Rule.resolve names = Mention.checked (names.map .rule) (names.filterMap Rule.ofName?) := by
  apply Mention.mapM_eq_checked (fun _ => Mention.known_rule_iff)
  intro name
  cases Rule.ofName? name <;> rfl

/-- The names of a change, in the order in which they are looked up. -/
def Adjustment.mentions (adjustment : Adjustment) : List Mention :=
  (adjustment.stages.getD []).map .stage ++ adjustment.disable.map .rule

/-- The settings after a change whose names are known. -/
def Settings.adjusted (settings : Settings) (adjustment : Adjustment) : Settings where
  stages := match adjustment.stages with
    | some names => Stage.inOrder (names.filterMap Stage.ofName?)
    | none => settings.stages
  disabled :=
    Rule.all.filter (· ∈ settings.disabled ++ adjustment.disable.filterMap Rule.ofName?)
  maxDepth := adjustment.maxDepth.getD settings.maxDepth

theorem Settings.adjust_eq (settings : Settings) (adjustment : Adjustment) :
    settings.adjust adjustment =
      Mention.checked adjustment.mentions (settings.adjusted adjustment) := by
  obtain ⟨stages, disable, maxDepth⟩ := adjustment
  have rules {next : List Rule → Except Failure Settings} {result : Settings}
      (last : next (disable.filterMap Rule.ofName?) = .ok result) :
      Rule.resolve disable >>= next = Mention.checked (disable.map .rule) result := by
    rw [Rule.resolve_eq]
    exact Mention.bind_checked_ok last
  cases stages with
  | none => exact rules rfl
  | some names =>
      have lookup := Stage.resolve_eq names
      exact (congrArg (· >>= _) lookup).trans (Mention.bind_checked (rules rfl))

/-- A configuration file and then a command line change the default settings. -/
theorem Settings.adjust_ofFile (file : ConfigFile) (adjustment : Adjustment) :
    let fromFile : Adjustment := ⟨file.stages, file.disabledRules, file.maxDepth⟩
    (Settings.ofFile file >>= fun settings => settings.adjust adjustment) =
      Mention.checked (fromFile.mentions ++ adjustment.mentions)
        ((Settings.default.adjusted fromFile).adjusted adjustment) := by
  intro fromFile
  rw [Settings.ofFile, Settings.adjust_eq]
  exact Mention.bind_checked (Settings.adjust_eq _ _)

def ConfigFile.mentions (file : ConfigFile) : List Mention :=
  (file.stages.getD []).map .stage ++ file.disabledRules.map .rule

def Arguments.mentions (arguments : Arguments) : List Mention :=
  arguments.stages.map .stage ++ arguments.disable.map .rule

theorem Arguments.mentions_adjustment (arguments : Arguments) :
    arguments.adjustment.mentions = arguments.mentions := by
  obtain ⟨_, _, _, stages, _, _, _⟩ := arguments
  cases stages <;> rfl

theorem Settings.ofFile_eq (file : ConfigFile) :
    Settings.ofFile file = Mention.checked file.mentions
      (Settings.default.adjusted ⟨file.stages, file.disabledRules, file.maxDepth⟩) :=
  Settings.adjust_eq _ _

theorem Settings.adjust_arguments (settings : Settings) (arguments : Arguments) :
    settings.adjust arguments.adjustment =
      Mention.checked arguments.mentions (settings.adjusted arguments.adjustment) := by
  rw [Settings.adjust_eq, arguments.mentions_adjustment]

/-- The stages of the command line, else those of the file, else all. A file may ask for none. -/
def Stage.IsAsked (stage : Stage) (file : ConfigFile) (arguments : Arguments) : Prop :=
  match arguments.stages, file.stages with
  | [], none => True
  | [], some names => ∃ name ∈ names, SameName stage.name name
  | names, _ => ∃ name ∈ names, SameName stage.name name

/-- The settings that a configuration file and a command line describe between them. -/
structure Settings.Follows (settings : Settings) (file : ConfigFile) (arguments : Arguments) :
    Prop where
  increasing : settings.stages.Pairwise fun stage later => stage.index < later.index
  stages : ∀ stage, stage ∈ settings.stages ↔ stage.IsAsked file arguments
  disabled : ∀ rule, rule ∈ settings.disabled ↔
    ∃ name ∈ file.disabledRules ++ arguments.disable, SameName rule.name name
  enabled : ∀ rule, rule ∈ settings.enabled ↔ rule ∉ settings.disabled
  registered : settings.enabled.Sublist Rule.all
  maxDepth : settings.maxDepth = (arguments.maxDepth.or file.maxDepth).getD 500

theorem Stage.mem_inOrder {stage : Stage} {stages : List Stage} :
    stage ∈ Stage.inOrder stages ↔ stage ∈ stages := by
  rw [Stage.inOrder, mem_eraseReps, List.mem_mergeSort]

theorem Stage.mem_inOrder_names {stage : Stage} {names : List String} :
    stage ∈ Stage.inOrder (names.filterMap Stage.ofName?) ↔
      ∃ name ∈ names, SameName stage.name name := by
  simp only [Stage.mem_inOrder, List.mem_filterMap, Stage.ofName?_eq_some_iff]

theorem Stage.pairwise_inOrder (stages : List Stage) :
    (Stage.inOrder stages).Pairwise fun stage later => stage.index < later.index := by
  let notAfter : Stage → Stage → Bool := fun stage later => stage.index ≤ later.index
  have sorted : (stages.mergeSort notAfter).Pairwise fun stage later => notAfter stage later := by
    refine List.pairwise_mergeSort ?_ ?_ stages
    · intro first second third
      simpa [notAfter] using Nat.le_trans
    · intro first second
      simpa [notAfter] using Nat.le_total first.index second.index
  exact pairwise_eraseReps (fun _ _ => Stage.index_inj.mp) (sorted.imp of_decide_eq_true)

/-- Sorted and each once, the stages of a list are those of the pipeline that it names. -/
theorem Stage.inOrder_eq_filter (stages : List Stage) :
    Stage.inOrder stages = Stage.all.filter (· ∈ stages) := by
  let Before : Stage → Stage → Prop := fun stage later => stage.index < later.index
  have : Std.Irrefl Before := ⟨fun stage => Nat.lt_irrefl stage.index⟩
  have : Std.Antisymm Before := ⟨fun _ _ before after => absurd before (Nat.lt_asymm after)⟩
  have all : Stage.all.Pairwise Before := by decide
  refine List.Pairwise.eq_of_mem_iff (Stage.pairwise_inOrder stages) (all.filter _) fun stage => ?_
  simp [Stage.mem_inOrder, stage.mem_all]

theorem Settings.mem_disabled_adjusted {settings : Settings} {adjustment : Adjustment}
    {rule : Rule} :
    rule ∈ (settings.adjusted adjustment).disabled ↔
      rule ∈ settings.disabled ∨ ∃ name ∈ adjustment.disable, SameName rule.name name := by
  rw [Settings.adjusted, List.mem_filter, and_iff_right rule.mem_all, decide_eq_true_iff,
    List.mem_append, List.mem_filterMap]
  simp only [Rule.ofName?_eq_some_iff]

theorem Settings.follows_adjusted (file : ConfigFile) (arguments : Arguments) :
    ((Settings.default.adjusted ⟨file.stages, file.disabledRules, file.maxDepth⟩).adjusted
      arguments.adjustment).Follows file arguments := by
  obtain ⟨fileStages, disabledRules, fileDepth⟩ := file
  obtain ⟨_, _, _, stages, disable, maxDepth, _⟩ := arguments
  constructor
  case increasing =>
    have all : Stage.all.Pairwise fun stage later => stage.index < later.index := by decide
    cases stages <;> cases fileStages <;>
      first | exact all | exact Stage.pairwise_inOrder _
  case stages =>
    intro stage
    cases stages <;> cases fileStages <;>
      first | exact Stage.mem_inOrder_names | exact iff_true_intro stage.mem_all
  case disabled =>
    intro rule
    simp only [Settings.mem_disabled_adjusted, Settings.default, List.not_mem_nil, false_or,
      Arguments.adjustment, List.mem_append, or_and_right, exists_or]
  case enabled =>
    intro rule
    simp [Settings.enabled, rule.mem_all]
  case registered => exact List.filter_sublist
  case maxDepth => cases maxDepth <;> cases fileDepth <;> rfl

/-- Each name of one list is in the other one, but for case: order and repetitions do not matter. -/
def SameNames (names others : List String) : Prop :=
  (∀ name ∈ names, ∃ other ∈ others, SameName name other) ∧
    ∀ other ∈ others, ∃ name ∈ names, SameName other name

structure ConfigFile.Alike (file other : ConfigFile) : Prop where
  stages : Option.Rel SameNames file.stages other.stages
  disabledRules : SameNames file.disabledRules other.disabledRules
  maxDepth : file.maxDepth = other.maxDepth

structure Arguments.Alike (arguments other : Arguments) : Prop where
  stages : SameNames arguments.stages other.stages
  disable : SameNames arguments.disable other.disable
  maxDepth : arguments.maxDepth = other.maxDepth

structure Adjustment.Alike (adjustment other : Adjustment) : Prop where
  stages : Option.Rel SameNames adjustment.stages other.stages
  disable : SameNames adjustment.disable other.disable
  maxDepth : adjustment.maxDepth = other.maxDepth

theorem Arguments.Alike.adjustment {arguments other : Arguments} (alike : arguments.Alike other) :
    arguments.adjustment.Alike other.adjustment := by
  refine ⟨?_, alike.disable, alike.maxDepth⟩
  have stages := alike.stages
  simp only [Arguments.adjustment]
  cases first : arguments.stages <;> cases second : other.stages <;> rw [first, second] at stages
  · exact .none
  · obtain ⟨_, member, _⟩ := stages.2 _ List.mem_cons_self
    cases member
  · obtain ⟨_, member, _⟩ := stages.1 _ List.mem_cons_self
    cases member
  · exact .some stages

section

variable {names others : List String} {adjustment other : Adjustment}

theorem SameNames.exists_congr (same : SameNames names others) (name : String) :
    (∃ query ∈ names, SameName name query) ↔ ∃ query ∈ others, SameName name query := by
  constructor
  · rintro ⟨query, member, named⟩
    obtain ⟨other, member', again⟩ := same.1 query member
    exact ⟨other, member', named.trans again⟩
  · rintro ⟨query, member, named⟩
    obtain ⟨other, member', again⟩ := same.2 query member
    exact ⟨other, member', named.trans again⟩

/-- What a list of names is checked for holds of each list of the same names. -/
theorem SameNames.forall_exists {α : Type} {nameOf : α → String} (same : SameNames names others)
    (known : ∀ name ∈ names, ∃ found, SameName (nameOf found) name) :
    ∀ other ∈ others, ∃ found, SameName (nameOf found) other := by
  intro other member
  obtain ⟨name, member', again⟩ := same.2 other member
  obtain ⟨found, named⟩ := known name member'
  exact ⟨found, named.trans again.symm⟩

theorem SameNames.inOrder_eq (same : SameNames names others) :
    Stage.inOrder (names.filterMap Stage.ofName?) =
      Stage.inOrder (others.filterMap Stage.ofName?) := by
  rw [Stage.inOrder_eq_filter, Stage.inOrder_eq_filter]
  apply List.filter_congr
  intro stage _
  rw [decide_eq_decide]
  simpa only [List.mem_filterMap, Stage.ofName?_eq_some_iff] using same.exists_congr stage.name

theorem Settings.adjusted_congr (settings : Settings) (alike : adjustment.Alike other) :
    settings.adjusted adjustment = settings.adjusted other := by
  obtain ⟨stages, disable, maxDepth⟩ := adjustment
  obtain ⟨stages', disable', maxDepth'⟩ := other
  obtain ⟨sameStages, sameRules, rfl⟩ := alike
  have disabled : Rule.all.filter (· ∈ settings.disabled ++ disable.filterMap Rule.ofName?) =
      Rule.all.filter (· ∈ settings.disabled ++ disable'.filterMap Rule.ofName?) := by
    apply List.filter_congr
    intro rule _
    rw [decide_eq_decide]
    simpa only [List.mem_append, List.mem_filterMap, Rule.ofName?_eq_some_iff] using
      or_congr_right (sameRules.exists_congr rule.name)
  cases sameStages with
  | none => simp only [Settings.adjusted, disabled]
  | some same => simp only [Settings.adjusted, disabled, same.inOrder_eq]

theorem Adjustment.Alike.known (alike : adjustment.Alike other)
    (known : ∀ mention ∈ adjustment.mentions, mention.Known) :
    ∀ mention ∈ other.mentions, mention.Known := by
  obtain ⟨stages, disable, maxDepth⟩ := adjustment
  obtain ⟨stages', disable', maxDepth'⟩ := other
  obtain ⟨sameStages, sameRules, _⟩ := alike
  simp only [Adjustment.mentions, List.forall_mem_append, List.forall_mem_map,
    Mention.Known] at known ⊢
  refine ⟨?_, sameRules.forall_exists known.2⟩
  cases sameStages with
  | none => exact known.1
  | some same => exact same.forall_exists known.1

end

/-- Names that agree but for case, order and repetitions lead to the same settings. -/
theorem Settings.resolved_of_alike {file file' : ConfigFile} {arguments arguments' : Arguments}
    (files : file.Alike file') (commandLines : arguments.Alike arguments') {settings : Settings}
    (resolved : (Settings.ofFile file >>= fun settings => settings.adjust arguments.adjustment) =
      .ok settings) :
    (Settings.ofFile file' >>= fun settings => settings.adjust arguments'.adjustment) =
      .ok settings := by
  have changes : Adjustment.Alike ⟨file.stages, file.disabledRules, file.maxDepth⟩
      ⟨file'.stages, file'.disabledRules, file'.maxDepth⟩ :=
    ⟨files.stages, files.disabledRules, files.maxDepth⟩
  rw [Settings.adjust_ofFile, Mention.checked_eq_ok_iff, List.forall_mem_append] at resolved ⊢
  obtain ⟨⟨knownFile, knownArguments⟩, rfl⟩ := resolved
  refine ⟨⟨changes.known knownFile, commandLines.adjustment.known knownArguments⟩, ?_⟩
  rw [Settings.adjusted_congr _ changes, Settings.adjusted_congr _ commandLines.adjustment]

/-- The settings of a configuration file, changed by a command line. They exist unless a name is
unknown, the first of which is reported; they are what the two ask for; and lists of the same names
lead to the same settings. -/
theorem Settings.follows_file_and_arguments (file : ConfigFile) (arguments : Arguments) :
    let outcome := Settings.ofFile file >>= fun settings => settings.adjust arguments.adjustment
    let mentions := file.mentions ++ arguments.mentions
    ((∃ settings, outcome = .ok settings) ↔ ∀ mention ∈ mentions, mention.Known) ∧
      (∀ failure, outcome = .error failure ↔ ∃ before mention after,
        mentions = before ++ mention :: after ∧ (∀ earlier ∈ before, earlier.Known) ∧
          ¬ mention.Known ∧ failure = mention.failure) ∧
      (∀ settings, outcome = .ok settings → settings.Follows file arguments) ∧
      ∀ file' arguments' settings, file.Alike file' → arguments.Alike arguments' →
        outcome = .ok settings →
          (Settings.ofFile file' >>= fun settings => settings.adjust arguments'.adjustment) =
            .ok settings := by
  intro outcome mentions
  have checked := Settings.adjust_ofFile file arguments.adjustment
  rw [arguments.mentions_adjustment] at checked
  change outcome = Mention.checked mentions _ at checked
  refine ⟨?_, ?_, ?_, fun _ _ _ files commandLines => Settings.resolved_of_alike files commandLines⟩
  · simp only [checked, Mention.checked_eq_ok_iff, exists_and_left, exists_eq', and_true]
  · intro failure
    rw [checked, Mention.checked_eq_error_iff]
  · intro settings resolved
    rw [checked, Mention.checked_eq_ok_iff] at resolved
    obtain ⟨_, rfl⟩ := resolved
    exact Settings.follows_adjusted file arguments

/-- A stage that the command line would have overridden has to be known all the same. -/
example : (Settings.ofFile ⟨some ["convert"], [], none⟩ >>= fun settings => settings.adjust
    { stages := some ["converting"], disable := ["other"], maxDepth := none }) =
      .error (.unknownStage "convert") := rfl

end EstreeLowering
