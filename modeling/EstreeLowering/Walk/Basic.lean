import EstreeLowering.Node.Children
import EstreeLowering.Walk.Hook

namespace EstreeLowering

/-- How many nodes had their hooks run, and how many were replaced. -/
structure Tally where
  visited : Nat
  replaced : Nat
deriving DecidableEq, Repr

namespace Tally

def zero : Tally := ⟨0, 0⟩

def add (tally other : Tally) : Tally :=
  ⟨tally.visited + other.visited, tally.replaced + other.replaced⟩

end Tally

structure Progress where
  tally : Tally
  limitReached : Bool
  events : Array Event

namespace Progress

def start : Progress :=
  ⟨.zero, false, #[]⟩

def record (progress : Progress) (events : List Event) : Progress :=
  { progress with events := progress.events ++ events }

def countVisit (progress : Progress) : Progress :=
  { progress with tally := { progress.tally with visited := progress.tally.visited + 1 } }

def countReplacement (progress : Progress) : Progress :=
  { progress with tally := { progress.tally with replaced := progress.tally.replaced + 1 } }

/-- The first node beyond the limit is reported, later ones are not. -/
def reachLimit (progress : Progress) (maxDepth : Nat) : Progress :=
  if progress.limitReached then progress
  else { progress.record [.depthExceeded maxDepth] with limitReached := true }

end Progress

/-- Runs one hook on a node; a replacement takes the slot over at once. -/
def applyHook (rule : Rule) (hook : Hook) (parent : Option NodeKind) (node : Node)
    (progress : Progress) : Node × Progress :=
  let result := hook node parent
  let progress := progress.record result.events
  match result.replacement with
  | none => (result.node, progress)
  | some replacement =>
      (replacement,
        (progress.record
          [.nodeReplaced rule result.node.typeName replacement.typeName]).countReplacement)

/-- Runs the hooks that `select` finds among those of the visitors, in their order. -/
def applyHooks (select : Hooks → Option Hook) (visitors : List Visitor)
    (parent : Option NodeKind) (node : Node) (progress : Progress) : Node × Progress :=
  visitors.foldl (fun (node, progress) visitor =>
    match select visitor.hooks with
    | some hook => applyHook visitor.rule hook parent node progress
    | none => (node, progress)) (node, progress)

/-- Changes the elements of a list from the left while a state goes through. -/
def throughList (step : α → σ → α × σ) : List α → σ → List α × σ
  | [], state => ([], state)
  | element :: elements, state =>
      let (changed, state) := step element state
      let (others, state) := throughList step elements state
      (changed :: others, state)

/-- Visits a node and what is below it, with `depthLeft` levels to go, on which the recursion is: it
ends whatever the hooks do. The children are those of the node as its entering hooks left it, and so
is the kind that they see as their parent's. -/
def visit (visitors : List Visitor) (maxDepth : Nat) :
    Nat → Option NodeKind → Node → Progress → Node × Progress
  | 0, _, node, progress => (node, progress.reachLimit maxDepth)
  | depthLeft + 1, parent, node, progress =>
      let (node, progress) :=
        applyHooks Hooks.entering? visitors parent node progress.countVisit
      let (children, progress) :=
        throughList (visit visitors maxDepth depthLeft (some node.kind)) node.children progress
      applyHooks Hooks.leaving? visitors parent (node.withChildren children) progress

def walk (visitors : List Visitor) (maxDepth : Nat) (root : Node) : Node × Progress :=
  visit visitors maxDepth maxDepth none root .start

end EstreeLowering
