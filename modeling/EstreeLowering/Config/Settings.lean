import EstreeLowering.Config.File
import EstreeLowering.Failure
import EstreeLowering.Pipeline

namespace EstreeLowering

structure Settings where
  stages : List Stage
  disabled : List Rule
  maxDepth : UInt32
deriving DecidableEq

structure Adjustment where
  stages : Option (List String)
  disable : List String
  maxDepth : Option UInt32

/-- The stages of those names, each once and in the order of the pipeline. -/
def Stage.resolve (names : List String) : Except Failure (List Stage) := do
  let stages ← names.mapM fun name =>
    match Stage.ofName? name with
    | some stage => .ok stage
    | none => .error (.unknownStage name)
  return inOrder stages

def Rule.resolve (names : List String) : Except Failure (List Rule) :=
  names.mapM fun name =>
    match Rule.ofName? name with
    | some rule => .ok rule
    | none => .error (.unknownRule name)

namespace Settings

def default : Settings :=
  ⟨Stage.all, [], .ofNat Pipeline.defaultMaxDepth⟩

/-- Stages replace those set before, disabled rules add to them. -/
def adjust (settings : Settings) (adjustment : Adjustment) : Except Failure Settings := do
  let stages ← match adjustment.stages with
    | some names => Stage.resolve names
    | none => .ok settings.stages
  let disabled ← Rule.resolve adjustment.disable
  return {
    stages
    disabled := Rule.all.filter (· ∈ settings.disabled ++ disabled)
    maxDepth := adjustment.maxDepth.getD settings.maxDepth }

def ofFile (file : ConfigFile) : Except Failure Settings :=
  default.adjust ⟨file.stages, file.disabledRules, file.maxDepth⟩

def ofText (text : String) (origin : String) : Except Failure Settings := do
  ofFile (← Failure.ofFault origin (ConfigFile.ofText text))

/-- The rules that are not disabled, in the order in which they are registered. -/
def enabled (settings : Settings) : List Rule :=
  Rule.all.filter (· ∉ settings.disabled)

def pipeline (settings : Settings) : Pipeline :=
  .ofRules settings.enabled settings.maxDepth.toNat

def transform (settings : Settings) (root : Node) : Node × Report :=
  settings.pipeline.runStages settings.stages root

end Settings

end EstreeLowering
