import EstreeLowering.CommandLine.Arguments
import EstreeLowering.Node.Read
import EstreeLowering.Node.Write
import EstreeLowering.Run.Host

namespace EstreeLowering

/-- A failure and what was being done, the outermost first. -/
structure RunFailure where
  context : List String
  failure : Failure
deriving DecidableEq, Repr

/-- Says what was being done when something failed. -/
def inContext (context : String) : Except Failure α → Except RunFailure α
  | .ok value => .ok value
  | .error failure => .error ⟨[context], failure⟩

namespace Node

/-- The tree in a text, whose name is used when it cannot be read. -/
def ofNamedText (text : String) (origin : String) : Except Failure Node :=
  Failure.ofFault origin (ofText text)

end Node

section

variable {m : Type → Type} [Monad m] (host : Host m)

def loadSettings (path : String) : m (Except Failure Settings) := do
  match ← host.readFile path with
  | .error fault => return .error (.unreadable path fault)
  | .ok text => return Settings.ofText text path

/-- The settings that the arguments ask for, the configuration file first. -/
def resolveSettings (arguments : Arguments) : m (Except RunFailure Settings) := do
  let base ← match arguments.config with
    | none => pure (.ok Settings.default)
    | some path => inContext ("failed to load config " ++ path) <$> loadSettings host path
  match base with
  | .error failure => return .error failure
  | .ok settings =>
      match settings.adjust arguments.adjustment with
      | .error failure => return .error ⟨[], failure⟩
      | .ok settings => return .ok settings

/-- The tree in a file, or on the standard input. -/
def loadTree (input : Option String) : m (Except Failure Node) := do
  let origin := input.getD "<stdin>"
  let read ← match input with
    | some path => host.readFile path
    | none => host.readInput
  match read with
  | .error fault => return .error (.unreadable origin fault)
  | .ok text => return Node.ofNamedText text origin

/-- Writes a tree and an end of line into a file, or to the standard output. -/
def emitTree (root : Node) (output : Option String) (layout : Json.Layout) :
    m (Except Failure Unit) := do
  let text := root.render layout ++ "\n"
  let written ← match output with
    | some path => host.writeFile path text
    | none => host.writeOutput text
  match written with
  | .error fault => return .error (.unwritable (output.getD "<stdout>") fault)
  | .ok () => return .ok ()

def reportAll (events : List Event) : m Unit :=
  events.forM host.report

/-- Settings, then the tree, then the walk, then the tree written. The first of these that fails
ends the run, so nothing is written unless everything before succeeded. -/
def run (arguments : Arguments) : m (Except RunFailure Tally) := do
  host.report (.runStarted (arguments.input.getD "-"))
  match ← resolveSettings host arguments with
  | .error failure => return .error failure
  | .ok settings =>
      host.report
        (.settingsResolved settings.stages settings.enabled settings.maxDepth.toNat)
      let input := arguments.input.filter fun path => !Path.isDash path
      match inContext "failed to load syntax tree" (← loadTree host input) with
      | .error failure => return .error failure
      | .ok root =>
          let (root, report) := settings.transform root
          let tally := report.tally
          reportAll host report.events
          host.report (.runFinished tally.visited tally.replaced)
          match inContext "failed to emit syntax tree"
              (← emitTree host root arguments.output arguments.layout) with
          | .error failure => return .error failure
          | .ok () => return .ok tally

end

end EstreeLowering
