import EstreeLowering.Run.Basic
import EstreeLowering.Proofs.Config.Resolution
import EstreeLowering.Proofs.Run.FileStore

/-!
What a run comes to.

A run goes through phases. What fails in a phase is said here of each phase for itself, from what is
there before the run; the first phase in which something fails is what the run reports, and then
nothing is written. If nothing fails, one place gets the tree and nothing else changes.
-/

namespace EstreeLowering

/-- What a run does with its surroundings, besides reporting. -/
inductive Access where
  | readFile (path : String)
  | readInput
  | writeFile (path : String) (text : String)
  | writeOutput (text : String)

/-- The host of a world in which accesses may be refused. A refused one leaves the world as it
is. -/
def World.refusing (refusal : Access → Option FileFault) : Host (StateM World) where
  readFile path := match refusal (.readFile path) with
    | some fault => return .error fault
    | none => World.host.readFile path
  readInput := match refusal .readInput with
    | some fault => return .error fault
    | none => World.host.readInput
  writeFile path text := match refusal (.writeFile path text) with
    | some fault => return .error fault
    | none => World.host.writeFile path text
  writeOutput text := match refusal (.writeOutput text) with
    | some fault => return .error fault
    | none => World.host.writeOutput text
  report := World.host.report

/-- What a run starts from. -/
structure Occasion where
  refusal : Access → Option FileFault
  arguments : Arguments
  world : World

inductive Phase where
  | readConfig
  | parseConfig
  | resolveConfig
  | resolveArguments
  | readTree
  | parseTree
  | write

/-- The phases in which the settings are found, in their order. -/
def Phase.settling : List Phase :=
  [.readConfig, .parseConfig, .resolveConfig, .resolveArguments]

def Phase.loading : List Phase :=
  [.readTree, .parseTree]

/-- The phases in their order. -/
def Phase.all : List Phase :=
  settling ++ loading ++ [.write]

namespace Occasion

variable (occasion : Occasion)

def fileText (path : String) : Except FileFault String :=
  match occasion.refusal (.readFile path) with
  | some fault => .error fault
  | none => occasion.world.files.readText path

def inputText : Except FileFault String :=
  match occasion.refusal .readInput with
  | some fault => .error fault
  | none => match String.fromUTF8? occasion.world.input with
    | some text => .ok text
    | none => .error .notText

/-- The file that the tree is read from, if it is not the standard input. -/
def source : Option String :=
  occasion.arguments.input.filter fun path => !Path.isDash path

def sourceText : Except FileFault String :=
  match occasion.source with
  | some path => occasion.fileText path
  | none => occasion.inputText

def config : Option ConfigFile :=
  match occasion.arguments.config with
  | none => some .empty
  | some path => do
      let .ok text := occasion.fileText path | none
      let .ok file := ConfigFile.ofText text | none
      return file

def settings : Option Settings := do
  let file ← occasion.config
  let .ok settings := Settings.ofFile file >>= fun settings =>
    settings.adjust occasion.arguments.adjustment | none
  return settings

def root : Option Node := do
  let .ok text := occasion.sourceText | none
  let .ok root := Node.ofText text | none
  return root

def emitted (settings : Settings) (root : Node) : String :=
  let pipeline := Pipeline.ofRules settings.enabled settings.maxDepth.toNat
  (pipeline.runStages settings.stages root).1.toJson.render occasion.arguments.layout ++ "\n"

def filesWith (path : String) (text : String) : Except FileFault FileStore :=
  match occasion.refusal (.writeFile path text) with
  | some fault => .error fault
  | none => occasion.world.files.writeText path text

def sinkFault (text : String) : Option FileFault :=
  match occasion.arguments.output with
  | none => occasion.refusal (.writeOutput text)
  | some path => do
      let .error fault := occasion.filesWith path text | none
      return fault

/-- What fails in a phase. Nothing does that depends on what an earlier phase failed to give. -/
def failure : Phase → Option RunFailure
  | .readConfig => do
      let path ← occasion.arguments.config
      let .error fault := occasion.fileText path | none
      return ⟨["failed to load config " ++ path], .unreadable path fault⟩
  | .parseConfig => do
      let path ← occasion.arguments.config
      let .ok text := occasion.fileText path | none
      let .error fault := ConfigFile.ofText text | none
      return ⟨["failed to load config " ++ path], .badJson path fault⟩
  | .resolveConfig => do
      let path ← occasion.arguments.config
      let file ← occasion.config
      let mention ← Mention.firstUnknown? file.mentions
      return ⟨["failed to load config " ++ path], mention.failure⟩
  | .resolveArguments => do
      let mention ← Mention.firstUnknown? occasion.arguments.mentions
      return ⟨[], mention.failure⟩
  | .readTree => do
      let .error fault := occasion.sourceText | none
      return ⟨["failed to load syntax tree"], .unreadable (occasion.source.getD "<stdin>") fault⟩
  | .parseTree => do
      let .ok text := occasion.sourceText | none
      let .error fault := Node.ofText text | none
      return ⟨["failed to load syntax tree"], .badJson (occasion.source.getD "<stdin>") fault⟩
  | .write => do
      let settings ← occasion.settings
      let root ← occasion.root
      let fault ← occasion.sinkFault (occasion.emitted settings root)
      return ⟨["failed to emit syntax tree"],
        .unwritable (occasion.arguments.output.getD "<stdout>") fault⟩

def firstFailure (phases : List Phase) : Option RunFailure :=
  phases.findSome? occasion.failure

/-- The world of the start, where something has been reported. Up to the writing a run is in such a
world, so what its parts read is what the phases are said of. -/
def reporting (events : Array Event) : World :=
  { occasion.world with events }

abbrev host : Host (StateM World) :=
  World.refusing occasion.refusal

/-- What phases come to: the first failure of them, or else their result. -/
inductive Ends (phases : List Phase) (result : Option α) : Except RunFailure α → Prop
  | failed {failure : RunFailure} (first : occasion.firstFailure phases = some failure) :
      Ends phases result (.error failure)
  | done {value : α} (unfailed : occasion.firstFailure phases = none)
      (given : result = some value) : Ends phases result (.ok value)

end Occasion

/-- The text is in the one place that the output names, and nothing else has changed. -/
inductive Delivered (before after : World) (text : String) : Option String → Prop
  | toOutput (output : after.output = before.output ++ text) (files : after.files = before.files) :
      Delivered before after text none
  | toFile {path : String} {place : List String} (output : after.output = before.output)
      (home : after.files.home = before.files.home)
      (located : before.files.locate path = .ok place)
      (written : after.files.contentAt place = some (.file text.toUTF8))
      (others : ∀ other, other ≠ place →
        after.files.contentAt other = before.files.contentAt other) :
      Delivered before after text (some path)

section

variable {α β : Type} {world later : World} {value : α}

theorem run_bind {first : StateM World α} (next : α → StateM World β)
    (performed : first.run world = (value, later)) :
    (first >>= next).run world = (next value).run later := by
  rw [StateT.run_bind, performed]
  rfl

end

namespace Occasion

variable (occasion : Occasion) (events : Array Event)

theorem run_report (event : Event) :
    (occasion.host.report event).run (occasion.reporting events) =
      ((), occasion.reporting (events.push event)) := rfl

theorem run_readFile (path : String) :
    (occasion.host.readFile path).run (occasion.reporting events) =
      (occasion.fileText path, occasion.reporting events) := by
  simp only [host, World.refusing, fileText]
  cases occasion.refusal (.readFile path) <;> rfl

theorem run_readInput :
    occasion.host.readInput.run (occasion.reporting events) =
      (occasion.inputText, occasion.reporting events) := by
  simp only [host, World.refusing, inputText]
  cases occasion.refusal .readInput with
  | some fault => rfl
  | none =>
      simp only [World.host, StateT.run_bind, StateT.run_get, pure_bind, reporting]
      cases String.fromUTF8? occasion.world.input <;> rfl

theorem run_loadSettings (path : String) :
    (loadSettings occasion.host path).run (occasion.reporting events) =
      (match occasion.fileText path with
        | .error fault => .error (.unreadable path fault)
        | .ok text => Settings.ofText text path, occasion.reporting events) := by
  rw [loadSettings, run_bind _ (occasion.run_readFile events path)]
  cases occasion.fileText path <;> rfl

def settle (base : Settings) : Except RunFailure Settings :=
  match base.adjust occasion.arguments.adjustment with
  | .error failure => .error ⟨[], failure⟩
  | .ok settings => .ok settings

theorem run_resolveSettings_of_none (absent : occasion.arguments.config = none) :
    (resolveSettings occasion.host occasion.arguments).run (occasion.reporting events) =
      (occasion.settle Settings.default, occasion.reporting events) := by
  simp only [resolveSettings, absent, pure_bind, settle]
  cases Settings.default.adjust occasion.arguments.adjustment <;> rfl

theorem run_resolveSettings_of_some {path : String}
    (given : occasion.arguments.config = some path) :
    (resolveSettings occasion.host occasion.arguments).run (occasion.reporting events) =
      (inContext ("failed to load config " ++ path) (match occasion.fileText path with
        | .error fault => .error (.unreadable path fault)
        | .ok text => Settings.ofText text path) >>= occasion.settle,
        occasion.reporting events) := by
  have performed : (inContext ("failed to load config " ++ path) <$>
      loadSettings occasion.host path).run (occasion.reporting events) = (inContext _ _, _) :=
    congrArg (Prod.map (inContext _) id) (occasion.run_loadSettings events path)
  simp only [resolveSettings, given, run_bind _ performed]
  cases inContext ("failed to load config " ++ path) _ with
  | error failure => rfl
  | ok base =>
      simp only [settle, bind, Except.bind]
      cases base.adjust occasion.arguments.adjustment <;> rfl

/-- The names of the arguments are the last thing that is settled. -/
theorem ends_settling {file : ConfigFile} {base : Settings}
    (before : occasion.firstFailure [.readConfig, .parseConfig, .resolveConfig] = none)
    (said : occasion.config = some file) (resolved : Settings.ofFile file = .ok base) :
    occasion.Ends Phase.settling occasion.settings (occasion.settle base) := by
  have phases : occasion.firstFailure Phase.settling = occasion.failure .resolveArguments := by
    have split : Phase.settling = [.readConfig, .parseConfig, .resolveConfig] ++
      [.resolveArguments] := rfl
    rw [firstFailure] at before
    rw [split, firstFailure, List.findSome?_append, before]
    simp
  rw [settle]
  cases first : Mention.firstUnknown? occasion.arguments.mentions with
  | some mention =>
      rw [Settings.adjust_arguments, Mention.checked_of_some first]
      apply Ends.failed
      simp [phases, failure, first]
  | none =>
      have adjusted : base.adjust occasion.arguments.adjustment =
          .ok (base.adjusted occasion.arguments.adjustment) := by
        rw [Settings.adjust_arguments, Mention.checked_of_none first]
      have both : (Settings.ofFile file >>= fun settings =>
          settings.adjust occasion.arguments.adjustment) =
            .ok (base.adjusted occasion.arguments.adjustment) := by
        rw [resolved]
        exact adjusted
      rw [adjusted]
      apply Ends.done
      · simp [phases, failure, first]
      · simp [settings, said, both]

theorem run_resolveSettings :
    ∃ outcome, (resolveSettings occasion.host occasion.arguments).run (occasion.reporting events) =
        (outcome, occasion.reporting events) ∧
      occasion.Ends Phase.settling occasion.settings outcome := by
  cases given : occasion.arguments.config with
  | none =>
      refine ⟨_, occasion.run_resolveSettings_of_none events given, ?_⟩
      have said : occasion.config = some .empty := by simp only [config, given]
      apply occasion.ends_settling _ said rfl
      simp [firstFailure, failure, given]
  | some path =>
      refine ⟨_, occasion.run_resolveSettings_of_some events given, ?_⟩
      cases read : occasion.fileText path with
      | error fault =>
          apply Ends.failed
          simp [firstFailure, Phase.settling, failure, given, read]
      | ok text =>
          simp only [Settings.ofText]
          cases parsed : ConfigFile.ofText text with
          | error fault =>
              apply Ends.failed
              simp [firstFailure, Phase.settling, failure, given, read, parsed]
          | ok file =>
              have said : occasion.config = some file := by simp [config, given, read, parsed]
              cases first : Mention.firstUnknown? file.mentions with
              | some mention =>
                  have resolved : Settings.ofFile file = .error mention.failure := by
                    rw [Settings.ofFile_eq, Mention.checked_of_some first]
                  simp only [Failure.ofFault, bind, Except.bind, resolved]
                  apply Ends.failed
                  simp [firstFailure, Phase.settling, failure, given, read, parsed, said, first]
              | none =>
                  have resolved : Settings.ofFile file = .ok (Settings.default.adjusted
                      ⟨file.stages, file.disabledRules, file.maxDepth⟩) := by
                    rw [Settings.ofFile_eq, Mention.checked_of_none first]
                  simp only [Failure.ofFault, bind, Except.bind, resolved]
                  apply occasion.ends_settling _ said resolved
                  simp [firstFailure, failure, given, read, parsed, said, first]

theorem run_loadTree :
    ∃ outcome, (loadTree occasion.host occasion.source).run (occasion.reporting events) =
        (outcome, occasion.reporting events) ∧
      occasion.Ends Phase.loading occasion.root
        (inContext "failed to load syntax tree" outcome) := by
  have performed : (loadTree occasion.host occasion.source).run (occasion.reporting events) =
      (match occasion.sourceText with
        | .error fault => .error (.unreadable (occasion.source.getD "<stdin>") fault)
        | .ok text => Node.ofNamedText text (occasion.source.getD "<stdin>"),
        occasion.reporting events) := by
    simp only [loadTree, sourceText]
    cases occasion.source with
    | some path =>
        simp only [run_bind _ (occasion.run_readFile events path)]
        cases occasion.fileText path <;> rfl
    | none =>
        simp only [run_bind _ (occasion.run_readInput events)]
        cases occasion.inputText <;> rfl
  refine ⟨_, performed, ?_⟩
  cases read : occasion.sourceText with
  | error fault =>
      apply Ends.failed
      simp [firstFailure, Phase.loading, failure, read]
  | ok text =>
      simp only [Node.ofNamedText]
      cases parsed : Node.ofText text with
      | error fault =>
          apply Ends.failed
          simp [firstFailure, Phase.loading, failure, read, parsed]
      | ok tree =>
          apply Ends.done
          · simp [firstFailure, Phase.loading, failure, read, parsed]
          · simp [root, read, parsed]

theorem run_reportAll (reported : List Event) :
    (reportAll occasion.host reported).run (occasion.reporting events) =
      ((), occasion.reporting (events ++ reported)) := by
  induction reported generalizing events with
  | nil =>
      rw [Array.appendList_nil]
      rfl
  | cons event reported ih =>
      rw [Array.appendList_cons]
      exact ih (events.push event)

theorem run_writeFile (path text : String) :
    (occasion.host.writeFile path text).run (occasion.reporting events) =
      match occasion.filesWith path text with
      | .error fault => (.error fault, occasion.reporting events)
      | .ok files => (.ok (), { occasion.reporting events with files }) := by
  simp only [host, World.refusing, filesWith]
  cases occasion.refusal (.writeFile path text) with
  | some fault => rfl
  | none =>
      simp only [World.host, StateT.run_bind, StateT.run_get, pure_bind, reporting]
      cases occasion.world.files.writeText path text <;> rfl

theorem run_writeOutput (text : String) :
    (occasion.host.writeOutput text).run (occasion.reporting events) =
      match occasion.refusal (.writeOutput text) with
      | some fault => (.error fault, occasion.reporting events)
      | none =>
          (.ok (), { occasion.reporting events with output := occasion.world.output ++ text }) := by
  simp only [host, World.refusing]
  cases occasion.refusal (.writeOutput text) <;> rfl

theorem delivered_of_written {path text : String} {files : FileStore} {after : World}
    (written : occasion.filesWith path text = .ok files)
    (output : after.output = occasion.world.output) (stored : after.files = files) :
    Delivered occasion.world after text (some path) := by
  have written : occasion.world.files.writeText path text = .ok files := by
    rw [filesWith] at written
    split at written
    · cases written
    · exact written
  obtain ⟨place, located, rfl⟩ := FileStore.exists_put_of_writeText written
  apply Delivered.toFile output _ located
  · rw [stored, FileStore.contentAt_put_self]
  · intro other different
    rw [stored, FileStore.contentAt_put_of_ne (FileStore.reached_locate located) different]
  · rw [stored, FileStore.put]

theorem run_emitTree {tree : Node} {text : String}
    (rendered : tree.render occasion.arguments.layout ++ "\n" = text) :
    ∃ result after, (emitTree occasion.host tree occasion.arguments.output
        occasion.arguments.layout).run (occasion.reporting events) = (result, after) ∧
      match occasion.sinkFault text with
      | some fault =>
          result = .error (.unwritable (occasion.arguments.output.getD "<stdout>") fault) ∧
            after = occasion.reporting events
      | none => result = .ok () ∧
          Delivered occasion.world after text occasion.arguments.output := by
  simp only [emitTree, rendered, sinkFault]
  cases occasion.arguments.output with
  | none =>
      have performed := occasion.run_writeOutput events text
      cases refused : occasion.refusal (.writeOutput text) with
      | some fault =>
          rw [refused] at performed
          exact ⟨_, _, run_bind _ performed, rfl, rfl⟩
      | none =>
          rw [refused] at performed
          exact ⟨_, _, run_bind _ performed, rfl, .toOutput rfl rfl⟩
  | some path =>
      have performed := occasion.run_writeFile events path text
      cases stored : occasion.filesWith path text with
      | error fault =>
          rw [stored] at performed
          simp only [stored]
          exact ⟨_, _, run_bind _ performed, rfl, rfl⟩
      | ok files =>
          rw [stored] at performed
          simp only [stored]
          exact ⟨_, _, run_bind _ performed, rfl, occasion.delivered_of_written stored rfl rfl⟩

theorem failure_write {settings : Settings} {tree : Node}
    (settled : occasion.settings = some settings) (loaded : occasion.root = some tree) :
    occasion.failure .write =
      (occasion.sinkFault (occasion.emitted settings tree)).map fun fault =>
        ⟨["failed to emit syntax tree"],
          .unwritable (occasion.arguments.output.getD "<stdout>") fault⟩ := by
  simp only [failure, settled, loaded, Option.bind_eq_bind, Option.bind_some, Option.map_eq_bind]
  rfl

theorem firstFailure_all :
    occasion.firstFailure Phase.all =
      (occasion.firstFailure Phase.settling).or
        ((occasion.firstFailure Phase.loading).or (occasion.failure .write)) := by
  simp [firstFailure, Phase.all, List.findSome?_append]

/-- A run reports the first failure of its phases and then has changed nothing but the log. Without
a failure, the lowered tree is all that was written. -/
theorem run_delivers_or_fails :
    let (outcome, after) := (run occasion.host occasion.arguments).run occasion.world
    match occasion.firstFailure Phase.all with
    | some failure =>
        outcome = .error failure ∧ after.output = occasion.world.output ∧
          after.files = occasion.world.files
    | none => ∃ settings tree,
        occasion.settings = some settings ∧ occasion.root = some tree ∧
          let pipeline := Pipeline.ofRules settings.enabled settings.maxDepth.toNat
          let (lowered, report) := pipeline.runStages settings.stages tree
          outcome = .ok report.tally ∧
            Delivered occasion.world after
              (lowered.toJson.render occasion.arguments.layout ++ "\n")
              occasion.arguments.output := by
  have started (event : Event) : (occasion.host.report event).run occasion.world =
      ((), occasion.reporting (occasion.world.events.push event)) := rfl
  obtain ⟨outcome, settling, ended⟩ := occasion.run_resolveSettings
    (occasion.world.events.push (.runStarted (occasion.arguments.input.getD "-")))
  simp only [run, run_bind _ (started _), run_bind _ settling]
  cases ended with
  | failed first =>
      simp only [firstFailure_all, first]
      exact ⟨rfl, rfl, rfl⟩
  | @done settings unfailed settled =>
      obtain ⟨outcome, loading, ended⟩ := occasion.run_loadTree
        ((occasion.world.events.push (.runStarted (occasion.arguments.input.getD "-"))).push
          (.settingsResolved settings.stages settings.enabled settings.maxDepth.toNat))
      simp only [run_bind _ (occasion.run_report _ _)]
      rw [source] at loading
      simp only [run_bind _ loading]
      generalize inContext "failed to load syntax tree" outcome = outcome at ended
      cases ended with
      | failed first =>
          simp only [firstFailure_all, unfailed, first]
          exact ⟨rfl, rfl, rfl⟩
      | @done tree unfailed' loaded =>
          simp only [run_bind _ (occasion.run_reportAll _ _), run_bind _ (occasion.run_report _ _)]
          -- Which events there are by now does not matter to what is written.
          generalize Array.push _ (Event.runFinished _ _) = events
          have rendered : (settings.transform tree).1.render occasion.arguments.layout ++ "\n" =
            occasion.emitted settings tree := rfl
          obtain ⟨written, after, emitting, ended⟩ := occasion.run_emitTree events rendered
          simp only [run_bind _ emitting, firstFailure_all, unfailed, unfailed',
            occasion.failure_write settled loaded]
          cases refused : occasion.sinkFault (occasion.emitted settings tree) with
          | some fault =>
              rw [refused] at ended
              obtain ⟨rfl, rfl⟩ := ended
              exact ⟨rfl, rfl, rfl⟩
          | none =>
              rw [refused] at ended
              obtain ⟨rfl, delivered⟩ := ended
              exact ⟨settings, tree, settled, loaded, rfl, delivered⟩

/-- Neither file is there and a stage is unknown, of which the configuration file comes first. -/
example :
    let occasion : Occasion :=
      { refusal := fun _ => none
        arguments := { Arguments.empty with config := "c", input := "t", stages := ["other"] }
        world := .ofFiles (.ofFiles ["home"] []) .empty }
    occasion.firstFailure Phase.all =
      some ⟨["failed to load config c"], .unreadable "c" .notFound⟩ := by
  cbv

end Occasion

end EstreeLowering
