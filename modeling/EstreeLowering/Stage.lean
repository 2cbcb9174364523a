import EstreeLowering.Named

namespace EstreeLowering

inductive Stage where
  | initializing
  | preparing
  | deadCodeInjection
  | controlFlowFlattening
  | converting
  | obfuscating
  | finalizing
deriving DecidableEq, Repr

namespace Stage

def all : List Stage :=
  [.initializing, .preparing, .deadCodeInjection, .controlFlowFlattening, .converting,
    .obfuscating, .finalizing]

def count : Nat := 7

/-- The position in the pipeline. -/
def index : Stage → Nat
  | .initializing => 0
  | .preparing => 1
  | .deadCodeInjection => 2
  | .controlFlowFlattening => 3
  | .converting => 4
  | .obfuscating => 5
  | .finalizing => 6

theorem mem_all (stage : Stage) : stage ∈ all := by
  cases stage <;> decide

theorem nodup_all : all.Nodup := by
  decide

theorem index_lt (stage : Stage) : stage.index < count := by
  cases stage <;> decide

theorem index_inj {stage other : Stage} : stage.index = other.index ↔ stage = other := by
  cases stage <;> cases other <;> decide

def name : Stage → String
  | .initializing => "initializing"
  | .preparing => "preparing"
  | .deadCodeInjection => "deadCodeInjection"
  | .controlFlowFlattening => "controlFlowFlattening"
  | .converting => "converting"
  | .obfuscating => "obfuscating"
  | .finalizing => "finalizing"

def ofName? (query : String) : Option Stage :=
  findNamed? name all query

/-- The stages of a list, sorted in the order of the pipeline and each once. -/
def inOrder (stages : List Stage) : List Stage :=
  (stages.mergeSort fun stage later => stage.index ≤ later.index).eraseReps

end Stage

end EstreeLowering
