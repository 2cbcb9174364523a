import EstreeLowering.Event
import EstreeLowering.Node.Basic

namespace EstreeLowering

/-- What a hook leaves in the slot of a node, and the node that is to take the slot over, if any. -/
structure HookResult where
  node : Node
  replacement : Option Node
  events : List Event

/-- The slot is left as it is. -/
def HookResult.keep (node : Node) : HookResult :=
  ⟨node, none, []⟩

/-- A hook sees the node and the kind of its parent, none exactly at the root. -/
abbrev Hook := Node → Option NodeKind → HookResult

/-- What a rule contributes to a stage: one hook at least. -/
inductive Hooks where
  | enter (hook : Hook)
  | leave (hook : Hook)
  | both (entering : Hook) (leaving : Hook)

namespace Hooks

def entering? : Hooks → Option Hook
  | .enter hook => some hook
  | .leave _ => none
  | .both hook _ => some hook

def leaving? : Hooks → Option Hook
  | .enter _ => none
  | .leave hook => some hook
  | .both _ hook => some hook

end Hooks

/-- A rule that takes part in a walk. -/
structure Visitor where
  rule : Rule
  hooks : Hooks

end EstreeLowering
