import EstreeLowering.Proofs.CommandLine.Sayings

/-!
Command lines mean what they spell.

A saying has several spellings, and a line spells its sayings one after the other. Whatever has been
read of a line is checked late, but it comes to what the sayings up to there come to. So a line is
read as the arguments that its sayings come to, and is refused if they come to none.
-/

namespace EstreeLowering

/-- A word that is taken for a value or an input even among options. -/
def Standalone (text : String) : Prop :=
  text = "-" ∨ text.toList.head? ≠ some '-'

/-- The words that say something. -/
inductive Spells : Saying → List String → Prop
  | attached {name option text} (declared : (name, .valued option) ∈ CommandOption.longNames) :
      Spells (.value option text) ["--" ++ name ++ "=" ++ text]
  | long {name option text} (declared : (name, .valued option) ∈ CommandOption.longNames)
      (standalone : Standalone text) : Spells (.value option text) ["--" ++ name, text]
  | short {letter option text} (declared : (letter, .valued option) ∈ CommandOption.shortNames)
      (standalone : Standalone text) :
      Spells (.value option text) [.ofList ['-', letter], text]
  | pretty : Spells .pretty ["--pretty"]
  | input {path} (standalone : Standalone path) : Spells (.input path) [path]

/-- The words that say one thing after the other. -/
inductive SpellsAll : List Saying → List String → Prop
  | nil : SpellsAll [] []
  | cons {saying words sayings line} (here : Spells saying words)
      (behind : SpellsAll sayings line) : SpellsAll (saying :: sayings) (words ++ line)

/-- The end of the options may be marked. Every word behind it is an input. -/
inductive SpellsLine : List Saying → List String → Prop
  | unmarked {sayings line} (spells : SpellsAll sayings line) : SpellsLine sayings line
  | marked {sayings line} (spells : SpellsAll sayings line) (paths : List String) :
      SpellsLine (sayings ++ paths.map .input) (line ++ "--" :: paths)

/-- A word that looks like an option and names none. -/
inductive Undeclared : String → Prop
  | long {name} (given : name ≠ "") (oneName : '=' ∉ name.toList)
      (unknown : name ∉ CommandOption.longNames.map Prod.fst) : Undeclared ("--" ++ name)
  | attached {name text} (oneName : '=' ∉ name.toList)
      (unknown : name ∉ CommandOption.longNames.map Prod.fst) :
      Undeclared ("--" ++ name ++ "=" ++ text)
  | short {letter behind} (single : letter ≠ '-')
      (unknown : letter ∉ CommandOption.shortNames.map Prod.fst) :
      Undeclared (.ofList ('-' :: letter :: behind))

namespace Word

theorem splitAtEquals_of_not_mem {cs : List Char} (oneName : '=' ∉ cs) :
    splitAtEquals cs = (.ofList cs, none) := by
  have before : cs.dropWhile (· != '=') = [] := by
    rw [List.dropWhile_eq_nil_iff]
    rintro c member
    exact bne_iff_ne.mpr (ne_of_mem_of_not_mem member oneName)
  rw [splitAtEquals, before]

theorem splitAtEquals_append {cs : List Char} (oneName : '=' ∉ cs) (value : List Char) :
    splitAtEquals (cs ++ '=' :: value) = (.ofList cs, some (.ofList value)) := by
  have before : ∀ c ∈ cs, (c != '=') = true := fun c member =>
    bne_iff_ne.mpr (ne_of_mem_of_not_mem member oneName)
  have dropped : (cs ++ '=' :: value).dropWhile (· != '=') = '=' :: value := by
    rw [List.dropWhile_append_of_pos before]
    rfl
  have taken : (cs ++ '=' :: value).takeWhile (· != '=') = cs := by
    rw [List.takeWhile_append_of_pos before]
    simp
  rw [splitAtEquals, dropped, taken]

theorem ofText_dashes {text : String} {cs : List Char} (given : cs ≠ [])
    (dashes : text.toList = '-' :: '-' :: cs) :
    ofText text = .long (splitAtEquals cs).1 (splitAtEquals cs).2 := by
  cases cs with
  | nil => exact absurd rfl given
  | cons c behind => simp only [ofText, dashes]

theorem ofText_long {name : String} (given : name ≠ "") (oneName : '=' ∉ name.toList) :
    ofText ("--" ++ name) = .long name none := by
  have dashes : ("--" ++ name).toList = '-' :: '-' :: name.toList := by simp
  rw [ofText_dashes (mt String.toList_eq_nil_iff.mp given) dashes,
    splitAtEquals_of_not_mem oneName, String.ofList_toList]

theorem ofText_attached {name : String} (oneName : '=' ∉ name.toList) (text : String) :
    ofText ("--" ++ name ++ "=" ++ text) = .long name (some text) := by
  have dashes : ("--" ++ name ++ "=" ++ text).toList =
      '-' :: '-' :: (name.toList ++ '=' :: text.toList) := by simp
  rw [ofText_dashes (by simp) dashes, splitAtEquals_append oneName, String.ofList_toList,
    String.ofList_toList]

theorem ofText_short {letter : Char} (single : letter ≠ '-') (behind : List Char) :
    ofText (.ofList ('-' :: letter :: behind)) = .short letter (attachedToLetter behind) := by
  unfold ofText
  rw [String.toList_ofList]
  split <;> simp_all

theorem ofText_standalone {text : String} (standalone : Standalone text) :
    ofText text = .plain text := by
  unfold ofText
  rcases standalone with rfl | plain
  · rfl
  · split <;> simp_all

end Word

namespace LineProgress

variable {progress : LineProgress} {taken : Option Arguments} {saying : Saying}
  {sayings : List Saying} {words line : List String}

/-- What the arguments are after the sayings, unless one is refused. -/
def comesTo (taken : Option Arguments) (sayings : List Saying) : Option Arguments :=
  taken.bind fun arguments => (sayings.foldlM Arguments.take arguments).toOption

/-- The result is those arguments, or a mistake where there are none. -/
def Results (taken : Option Arguments) : Except UsageError Arguments → Prop
  | .ok arguments => taken = some arguments
  | .error reason => taken = none ∧ reason.IsMistake

/-- What has been read comes to those arguments, or to none, once what is pending is checked. -/
structure Follows (progress : LineProgress) (taken : Option Arguments) : Prop where
  settled : Results taken (progress.arguments.settle progress.pending)
  input : ∀ arguments ∈ taken, progress.inputSeen = arguments.input.isSome
  complete : ∀ option, progress.pending ≠ .awaiting option

/-- The reading has failed by a mistake, or goes on and comes to those arguments or to none. -/
def Reaches (ended : Bool) (taken : Option Arguments) : Except UsageError LineProgress → Prop
  | .ok progress => progress.Follows taken ∧ progress.optionsEnded = ended
  | .error reason => taken = none ∧ reason.IsMistake

@[simp] theorem comesTo_nil : comesTo taken [] = taken := by
  cases taken <;> rfl

theorem comesTo_append (taken : Option Arguments) (sayings others : List Saying) :
    comesTo taken (sayings ++ others) = comesTo (comesTo taken sayings) others := by
  cases taken with
  | none => rfl
  | some arguments =>
      simp only [comesTo, Option.bind_some, List.foldlM_append]
      cases sayings.foldlM Arguments.take arguments <;> rfl

theorem comesTo_cons :
    comesTo taken (saying :: sayings) = comesTo (comesTo taken [saying]) sayings :=
  comesTo_append taken [saying] sayings

theorem results_take (arguments : Arguments) (saying : Saying) :
    Results (comesTo (some arguments) [saying]) (arguments.take saying) := by
  have single : comesTo (some arguments) [saying] = (arguments.take saying).toOption := by
    simp [comesTo]
  rw [single]
  cases taken : arguments.take saying with
  | error reason => exact ⟨rfl, Arguments.isMistake_of_take taken⟩
  | ok given => rfl

theorem settled_cases (follows : progress.Follows taken) :
    (∃ reason, progress.arguments.settle progress.pending = .error reason ∧ taken = none ∧
        reason.IsMistake) ∨
      ∃ arguments, progress.arguments.settle progress.pending = .ok arguments ∧
        taken = some arguments ∧ progress.inputSeen = arguments.input.isSome := by
  have settled := follows.settled
  cases checked : progress.arguments.settle progress.pending with
  | error reason =>
      rw [checked] at settled
      exact .inl ⟨reason, rfl, settled⟩
  | ok arguments =>
      rw [checked] at settled
      exact .inr ⟨arguments, rfl, settled, follows.input arguments settled⟩

def takeNow (progress : LineProgress) (saying : Saying) : Except UsageError LineProgress := do
  let arguments ← progress.arguments.settle progress.pending
  return { progress with arguments := ← arguments.take saying, pending := .nothing }

theorem longNames_cases : ∀ entry ∈ CommandOption.longNames, entry.1 ≠ "" ∧
    '=' ∉ entry.1.toList ∧ CommandOption.longNames.lookup entry.1 = some entry.2 := by
  decide

theorem shortNames_cases : ∀ entry ∈ CommandOption.shortNames, entry.1 ≠ '-' ∧
    CommandOption.shortNames.lookup entry.1 = some entry.2 := by
  decide

section

variable {name text : String} {letter : Char} {option : ValueOption}

theorem step_attached (declared : (name, .valued option) ∈ CommandOption.longNames)
    (continues : progress.optionsEnded = false) (text : String) :
    progress.step ("--" ++ name ++ "=" ++ text) = progress.takeNow (.value option text) := by
  obtain ⟨_, oneName, known⟩ := longNames_cases _ declared
  simp only [step, continues, Bool.false_eq_true, if_false, Word.ofText_attached oneName, known]
  rfl

theorem step_long (declared : (name, .valued option) ∈ CommandOption.longNames)
    (continues : progress.optionsEnded = false) :
    progress.step ("--" ++ name) = progress.takeValued option none := by
  obtain ⟨given, oneName, known⟩ := longNames_cases _ declared
  simp [step, continues, Word.ofText_long given oneName, known]

theorem step_short (declared : (letter, .valued option) ∈ CommandOption.shortNames)
    (continues : progress.optionsEnded = false) :
    progress.step (.ofList ['-', letter]) = progress.takeValued option none := by
  obtain ⟨single, known⟩ := shortNames_cases _ declared
  unfold step
  simp only [continues, Bool.false_eq_true, if_false, Word.ofText_short single, known]
  rfl

theorem step_pretty (continues : progress.optionsEnded = false) :
    progress.step "--pretty" = progress.takeNow .pretty := by
  have word : Word.ofText "--pretty" = .long "pretty" none := by decide
  have known : CommandOption.longNames.lookup "pretty" = some (.flag .pretty) := by decide
  simp only [step, continues, Bool.false_eq_true, if_false, word, known, Option.isSome_none]
  rfl

theorem step_standalone (standalone : Standalone text)
    (continues : progress.optionsEnded = false) : progress.step text = progress.takePlain text := by
  simp [step, continues, Word.ofText_standalone standalone]

theorem takePlain_eq (complete : ∀ option, progress.pending ≠ .awaiting option) (text : String) :
    progress.takePlain text = progress.takeInput text := by
  unfold takePlain
  split
  · exact absurd ‹_› (complete _)
  · rfl

end

theorem takes_of_comesTo {arguments given : Arguments}
    (comes : comesTo (some arguments) [saying] = some given) : arguments.Takes saying given := by
  have result := results_take arguments saying
  rw [comes] at result
  cases taken : arguments.take saying with
  | error reason =>
      rw [taken] at result
      cases result.1
  | ok other =>
      rw [taken] at result
      obtain rfl : given = other := Option.some.inj result
      exact Arguments.take_eq_ok_iff.mp taken

theorem reaches_takeInput (follows : progress.Follows taken) (path : String) :
    Reaches progress.optionsEnded (comesTo taken [.input path]) (progress.takeInput path) := by
  unfold takeInput
  rcases settled_cases follows with
    ⟨reason, settled, rfl, mistake⟩ | ⟨arguments, settled, rfl, seen⟩
  · split
    · exact ⟨rfl, by decide⟩
    · rw [settled]
      exact ⟨rfl, mistake⟩
  · cases first : arguments.input with
    | some earlier =>
        rw [if_pos (by rw [seen, first, Option.isSome_some])]
        refine ⟨Option.eq_none_iff_forall_ne_some.mpr fun given isGiven => ?_, by decide⟩
        cases takes_of_comesTo isGiven with
        | input unseen =>
            rw [first] at unseen
            cases unseen
    | none =>
        rw [if_neg (by simp [seen, first]), settled]
        refine ⟨⟨results_take arguments _, ?_, nofun⟩, rfl⟩
        intro given isGiven
        cases takes_of_comesTo isGiven with
        | input => rfl

theorem follows_of_settled {arguments : Arguments} (another : saying.path? = none)
    (seen : progress.inputSeen = arguments.input.isSome)
    (settled : progress.arguments.settle progress.pending = arguments.take saying)
    (complete : ∀ option, progress.pending ≠ .awaiting option) :
    progress.Follows (comesTo (some arguments) [saying]) := by
  refine ⟨settled ▸ results_take arguments saying, ?_, complete⟩
  intro given isGiven
  rw [seen]
  cases takes_of_comesTo isGiven with
  | input => cases another
  | _ => rfl

theorem reaches_takeNow (follows : progress.Follows taken) (another : saying.path? = none) :
    Reaches progress.optionsEnded (comesTo taken [saying]) (progress.takeNow saying) := by
  unfold takeNow
  rcases settled_cases follows with
    ⟨reason, settled, rfl, mistake⟩ | ⟨arguments, settled, rfl, seen⟩
  · rw [settled]
    exact ⟨rfl, mistake⟩
  · simp only [settled, bind, Except.bind]
    cases given : arguments.take saying with
    | error reason =>
        have result := results_take arguments saying
        rw [given] at result
        exact result
    | ok given' => exact ⟨follows_of_settled another seen given.symm nofun, rfl⟩

theorem reaches_separate (follows : progress.Follows taken)
    (continues : progress.optionsEnded = false) (option : ValueOption) {text : String}
    (standalone : Standalone text) :
    Reaches false (comesTo taken [.value option text])
      (progress.takeValued option none >>= (step · text)) := by
  unfold takeValued
  rcases settled_cases follows with
    ⟨reason, settled, rfl, mistake⟩ | ⟨arguments, settled, rfl, seen⟩
  · rw [settled]
    exact ⟨rfl, mistake⟩
  · have plain : step { progress with arguments, pending := .awaiting option } text = _ :=
      step_standalone standalone continues
    simp only [settled, bind, Except.bind, pure, Except.pure, plain]
    exact ⟨follows_of_settled rfl seen rfl nofun, continues⟩

/-- The words of a saying take the reading to what it comes to with the saying. -/
theorem reaches_of_spells (spells : Spells saying words) (follows : progress.Follows taken)
    (continues : progress.optionsEnded = false) :
    Reaches false (comesTo taken [saying]) (words.foldlM step progress) := by
  cases spells with
  | @attached name option text declared =>
      rw [List.foldlM_cons, step_attached declared continues]
      have reaches := reaches_takeNow follows (rfl : (Saying.value option text).path? = none)
      simpa [continues] using reaches
  | @long name option text declared standalone =>
      rw [List.foldlM_cons, step_long declared continues]
      simpa using reaches_separate follows continues option standalone
  | @short letter option text declared standalone =>
      rw [List.foldlM_cons, step_short declared continues]
      simpa using reaches_separate follows continues option standalone
  | pretty =>
      rw [List.foldlM_cons, step_pretty continues]
      have reaches := reaches_takeNow follows (rfl : Saying.pretty.path? = none)
      simpa [continues] using reaches
  | @input path standalone =>
      rw [List.foldlM_cons, step_standalone standalone continues, takePlain_eq follows.complete]
      simpa [continues] using reaches_takeInput follows path

/-- A reading goes on with what is said behind. -/
theorem Reaches.bind {ended ended' : Bool} {reading : Except UsageError LineProgress}
    {further : LineProgress → Except UsageError LineProgress}
    (reaches : Reaches ended taken reading)
    (behind : ∀ progress, progress.Follows taken → progress.optionsEnded = ended →
      Reaches ended' (comesTo taken sayings) (further progress)) :
    Reaches ended' (comesTo taken sayings) (reading >>= further) := by
  cases reading with
  | ok progress => exact behind progress reaches.1 reaches.2
  | error reason =>
      obtain ⟨rfl, mistake⟩ := reaches
      exact ⟨rfl, mistake⟩

theorem Reaches.settle {ended : Bool} {reading : Except UsageError LineProgress}
    (reaches : Reaches ended taken reading) :
    Results taken (reading >>= fun last => last.arguments.settle last.pending) := by
  cases reading with
  | ok progress => exact reaches.1.settled
  | error reason => exact reaches

theorem reaches_of_spellsAll (spells : SpellsAll sayings line) (follows : progress.Follows taken)
    (continues : progress.optionsEnded = false) :
    Reaches false (comesTo taken sayings) (line.foldlM step progress) := by
  induction spells generalizing progress taken with
  | nil =>
      rw [comesTo_nil]
      exact ⟨follows, continues⟩
  | cons here behind ih =>
      rw [List.foldlM_append, comesTo_cons]
      exact (reaches_of_spells here follows continues).bind fun _ => ih

theorem reaches_paths (paths : List String) (follows : progress.Follows taken)
    (ended : progress.optionsEnded = true) :
    Reaches true (comesTo taken (paths.map .input)) (paths.foldlM step progress) := by
  induction paths generalizing progress taken with
  | nil =>
      rw [List.map_nil, comesTo_nil]
      exact ⟨follows, ended⟩
  | cons path paths ih =>
      have input : progress.step path = progress.takeInput path := by simp [step, ended]
      rw [List.map_cons, List.foldlM_cons, comesTo_cons, input]
      exact (ended ▸ reaches_takeInput follows path).bind fun _ => ih

theorem reaches_of_spellsLine (spells : SpellsLine sayings line) (follows : progress.Follows taken)
    (continues : progress.optionsEnded = false) :
    ∃ ended, Reaches ended (comesTo taken sayings) (line.foldlM step progress) := by
  cases spells with
  | unmarked spells => exact ⟨false, reaches_of_spellsAll spells follows continues⟩
  | marked spells paths =>
      refine ⟨true, ?_⟩
      rw [List.foldlM_append, comesTo_append]
      refine (reaches_of_spellsAll spells follows continues).bind fun progress follows unended => ?_
      have ends : progress.step "--" = .ok { progress with optionsEnded := true } := by
        have word : Word.ofText "--" = .endOfOptions := by decide
        simp [step, unended, word]
      rw [List.foldlM_cons, ends]
      exact reaches_paths paths ⟨follows.settled, follows.input, follows.complete⟩ rfl

theorem comesTo_eq_some_iff {start final : Arguments} :
    comesTo (some start) sayings = some final ↔ start.Extends sayings final := by
  rw [← Arguments.foldlM_take_eq_ok_iff, comesTo, Option.bind_some]
  cases sayings.foldlM Arguments.take start <;> simp [Except.toOption]

theorem start_follows : start.Follows (some .empty) := by
  refine ⟨rfl, ?_, nofun⟩
  rintro _ ⟨⟩
  rfl

theorem step_undeclared {word : String} (undeclared : Undeclared word)
    (continues : progress.optionsEnded = false) :
    progress.step word = .error .unknownArgument := by
  unfold step
  rw [if_neg (by simp [continues])]
  cases undeclared with
  | long given oneName unknown =>
      simp only [Word.ofText_long given oneName, lookup_eq_none_iff_not_mem.mpr unknown]
  | attached oneName unknown =>
      simp only [Word.ofText_attached oneName, lookup_eq_none_iff_not_mem.mpr unknown]
  | short single unknown =>
      simp only [Word.ofText_short single, lookup_eq_none_iff_not_mem.mpr unknown]

end LineProgress

namespace Arguments

variable {sayings : List Saying} {line : List String}

theorem results_ofWords (spells : SpellsLine sayings line) :
    LineProgress.Results (LineProgress.comesTo (some empty) sayings) (ofWords line) := by
  obtain ⟨ended, reaches⟩ :=
    LineProgress.reaches_of_spellsLine spells LineProgress.start_follows rfl
  exact reaches.settle

theorem ofWords_undeclared {front back : List String} {word : String}
    (spells : SpellsAll sayings front) (undeclared : Undeclared word) :
    ∃ reason, ofWords (front ++ word :: back) = .error reason ∧ reason.IsMistake := by
  have reaches := LineProgress.reaches_of_spellsAll spells LineProgress.start_follows rfl
  rw [ofWords, List.foldlM_append]
  cases read : front.foldlM LineProgress.step .start with
  | error reason =>
      rw [read] at reaches
      exact ⟨reason, rfl, reaches.2⟩
  | ok progress =>
      rw [read] at reaches
      refine ⟨.unknownArgument, ?_, by decide⟩
      simp only [bind, Except.bind, List.foldlM_cons,
        LineProgress.step_undeclared undeclared reaches.2]

/-- Whatever is spelled is read as what it says, in whichever order and by whichever spellings. What
is said twice that may be said once, and an option that is not declared, are mistakes. -/
theorem ofWords_spelled :
    (∀ (arguments : Arguments) sayings line, arguments.output ≠ some "" →
      arguments.config ≠ some "" → arguments.input ≠ some "" → arguments.SaidBy sayings →
        SpellsLine sayings line → ofWords line = .ok arguments) ∧
      (∀ sayings line, Repeats sayings → SpellsLine sayings line →
        ∃ reason, ofWords line = .error reason ∧ reason.IsMistake) ∧
      ∀ sayings front word back, SpellsAll sayings front → Undeclared word →
        ∃ reason, ofWords (front ++ word :: back) = .error reason ∧ reason.IsMistake := by
  refine ⟨?_, ?_, ?_⟩
  · intro arguments sayings line output config input said spells
    have comes := LineProgress.comesTo_eq_some_iff.mpr (said.extends output config input)
    have results := results_ofWords spells
    rw [comes] at results
    cases read : ofWords line with
    | error reason =>
        rw [read] at results
        cases results.1
    | ok given =>
        rw [read] at results
        rw [Option.some.inj results]
  · intro sayings line repeats spells
    have results := results_ofWords spells
    cases read : ofWords line with
    | error reason =>
        rw [read] at results
        exact ⟨reason, rfl, results.2⟩
    | ok arguments =>
        rw [read] at results
        have extending := LineProgress.comesTo_eq_some_iff.mp results
        exact absurd extending (not_extends_of_repeats repeats)
  · exact fun sayings front word back spells undeclared => ofWords_undeclared spells undeclared

/-- Values that look like options, and the input among the options or behind their end. -/
theorem ofWords_spelled_mixed :
    let arguments : Arguments :=
      ⟨some "-", some "-o=x", some "c.json", ["--pretty", "a b"], [], some 7, true⟩
    let options := ["--stage=--pretty", "-c", "c.json", "--maxDepth", "7", "--pretty"]
    let line := options ++ ["-", "--stage", "a b", "--output=-o=x"]
    ofWords line = .ok arguments ∧
      (∃ reason, ofWords (options ++ ["--output", "x", "--output=-o=x", "--", "-", "-y"]) =
        .error reason ∧ reason.IsMistake) ∧
      ∃ reason, ofWords (options ++ ["--depth=7", "x"]) = .error reason ∧ reason.IsMistake := by
  intro arguments options line
  have stage : ("stage", .valued .stage) ∈ CommandOption.longNames := by decide
  have output : ("output", .valued .output) ∈ CommandOption.longNames := by decide
  have depth : ("maxDepth", .valued .maxDepth) ∈ CommandOption.longNames := by decide
  have config : ('c', .valued .config) ∈ CommandOption.shortNames := by decide
  have standalone {text : String} (plain : text.toList.head? ≠ some '-') : Standalone text :=
    .inr plain
  have stages : Spells (.value .stage "--pretty") ["--stage=--pretty"] := .attached stage
  have configs : Spells (.value .config "c.json") ["-c", "c.json"] :=
    .short config (standalone (by decide))
  have depths : Spells (.value .maxDepth "7") ["--maxDepth", "7"] :=
    .long depth (standalone (by decide))
  have outputs : Spells (.value .output "-o=x") ["--output=-o=x"] := .attached output
  have names : Spells (.value .stage "a b") ["--stage", "a b"] :=
    .long stage (standalone (by decide))
  have path : Spells (.input "-") ["-"] := .input (.inl rfl)
  have earlier : Spells (.value .output "x") ["--output", "x"] :=
    .long output (standalone (by decide))
  let said : List Saying :=
    [.value .stage "--pretty", .value .config "c.json", .value .maxDepth "7", .pretty]
  let further : List Saying := [.input "-", .value .stage "a b", .value .output "-o=x"]
  have spells {sayings rest} (behind : SpellsAll sayings rest) :
      SpellsAll (said ++ sayings) (options ++ rest) := by
    have line := SpellsAll.cons stages (.cons configs (.cons depths (.cons .pretty behind)))
    exact line
  have once := spells (.cons path (.cons names (.cons outputs .nil)))
  have twice := spells (.cons earlier (.cons outputs .nil))
  have isSaid : arguments.SaidBy (said ++ further) := ⟨rfl, rfl, rfl, rfl, rfl, rfl, rfl⟩
  have undeclared : Undeclared "--depth=7" :=
    @Undeclared.attached "depth" "7" (by decide) (by decide)
  obtain ⟨reads, refused, unknown⟩ := ofWords_spelled
  exact ⟨reads _ _ _ (by decide) (by decide) (by decide) isSaid (.unmarked once),
    refused _ _ (.inl (by decide)) (.marked twice ["-", "-y"]),
    unknown _ options _ ["x"] (spells .nil) undeclared⟩

end Arguments

end EstreeLowering
