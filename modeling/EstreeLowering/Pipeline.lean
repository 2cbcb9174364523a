import EstreeLowering.Walk.Basic
import EstreeLowering.Walk.Schedule

namespace EstreeLowering

/-- What one or more stages did besides changing the tree. -/
structure Report where
  tally : Tally
  events : List Event

namespace Report

def empty : Report :=
  ⟨.zero, []⟩

def append (report other : Report) : Report :=
  ⟨report.tally.add other.tally, report.events ++ other.events⟩

end Report

structure Pipeline where
  schedule : Schedule
  maxDepth : Nat

namespace Pipeline

def defaultMaxDepth : Nat := 500

def ofRules (rules : List Rule) (maxDepth : Nat) : Pipeline :=
  ⟨.ofRules rules, maxDepth⟩

/-- Runs one stage. A stage without rules leaves the tree unvisited. -/
def runStage (pipeline : Pipeline) (stage : Stage) (root : Node) : Node × Report :=
  let visitors := pipeline.schedule.visitors stage
  if visitors.isEmpty then (root, ⟨.zero, [.stageStarted stage, .stageSkipped]⟩)
  else
    let (root, progress) := walk visitors pipeline.maxDepth root
    let tally := progress.tally
    (root, ⟨tally, .stageStarted stage ::
      (progress.events.toList ++ [.stageFinished tally.visited tally.replaced])⟩)

def runStages (pipeline : Pipeline) : List Stage → Node → Node × Report
  | [], root => (root, .empty)
  | stage :: stages, root =>
      let (root, first) := pipeline.runStage stage root
      let (root, others) := pipeline.runStages stages root
      (root, first.append others)

/-- Runs every stage in the order of the pipeline. -/
def runAllStages (pipeline : Pipeline) (root : Node) : Node × Report :=
  pipeline.runStages Stage.all root

end Pipeline

end EstreeLowering
