import EstreeLowering.Rule.Basic
import EstreeLowering.Stage

namespace EstreeLowering

inductive Level where
  | trace
  | debug
  | info
  | warn
deriving DecidableEq, Repr

def Level.name : Level → String
  | .trace => "TRACE"
  | .debug => "DEBUG"
  | .info => "INFO"
  | .warn => "WARN"

/-- What a run reports while it goes on. An event says what happened; its level, title and fields
are how it is logged. A span is the event of something beginning. -/
inductive Event where
  | runStarted (input : String)
  | settingsResolved (stages : List Stage) (rules : List Rule) (maxDepth : Nat)
  | stageStarted (stage : Stage)
  | stageSkipped
  | stageFinished (visited : Nat) (replaced : Nat)
  | memberConverted (key : String)
  | templateFlattened (quasis : Nat) (expressions : Nat)
  | nodeReplaced (rule : Rule) (before : String) (after : String)
  | depthExceeded (maxDepth : Nat)
  | runFinished (visited : Nat) (replaced : Nat)
deriving DecidableEq, Repr

namespace Event

inductive FieldValue where
  | number (value : Nat)
  | text (value : String)
deriving DecidableEq, Repr

def level : Event → Level
  | .runStarted _ | .runFinished _ _ => .info
  | .settingsResolved _ _ _ | .stageStarted _ | .stageSkipped | .stageFinished _ _ => .debug
  | .memberConverted _ | .templateFlattened _ _ | .nodeReplaced _ _ _ => .trace
  | .depthExceeded _ => .warn

def isSpan : Event → Bool
  | .runStarted _ | .stageStarted _ => true
  | _ => false

/-- The name of a span, the message of any other event. -/
def title : Event → String
  | .runStarted _ => "esmorph"
  | .settingsResolved _ _ _ => "resolved pipeline"
  | .stageStarted _ => "transform"
  | .stageSkipped => "no transformer active, skipping walk"
  | .stageFinished _ _ => "stage walk finished"
  | .memberConverted _ => "member access converted to computed form"
  | .templateFlattened _ _ => "flattening template literal"
  | .nodeReplaced _ _ _ => "node replaced"
  | .depthExceeded _ => "syntax tree exceeds traversal depth, deeper nodes left unchanged"
  | .runFinished _ _ => "transformation finished"

/-- Names between brackets, separated by commas, each beginning with a capital letter. -/
def bracketed (names : List String) : String :=
  "[" ++ String.intercalate ", " (names.map String.capitalize) ++ "]"

def fields : Event → List (String × FieldValue)
  | .runStarted input => [("input", .text input)]
  | .settingsResolved stages rules maxDepth =>
      [("stages", .text (bracketed (stages.map Stage.name))),
        ("transformers", .text (bracketed (rules.map Rule.name))),
        ("max_depth", .number maxDepth)]
  | .stageStarted stage => [("stage", .text stage.name)]
  | .stageSkipped => []
  | .stageFinished visited replaced | .runFinished visited replaced =>
      [("visited", .number visited), ("replaced", .number replaced)]
  | .memberConverted key => [("key", .text key)]
  | .templateFlattened quasis expressions =>
      [("quasis", .number quasis), ("expressions", .number expressions)]
  | .nodeReplaced rule before after =>
      [("transformer", .text rule.name), ("from", .text before), ("to", .text after)]
  | .depthExceeded maxDepth => [("max_depth", .number maxDepth)]

end Event

end EstreeLowering
