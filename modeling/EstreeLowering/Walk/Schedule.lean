import EstreeLowering.Rule.MemberAccess
import EstreeLowering.Rule.Template

namespace EstreeLowering

/-- What a rule contributes to a stage, if it takes part in it. -/
def Rule.hooks? : Rule → Stage → Option Hooks
  | .memberAccess, .converting => some (.enter MemberAccess.enter)
  | .templateLiteral, .converting => some (.leave Template.leave)
  | _, _ => none

def Rule.activeStages (rule : Rule) : List Stage :=
  Stage.all.filter fun stage => (rule.hooks? stage).isSome

/-- What a rule is in a stage, if it takes part in it. -/
def Visitor.of? (stage : Stage) (rule : Rule) : Option Visitor :=
  (rule.hooks? stage).map (Visitor.mk rule)

/-- The visitors of every stage, at the index of the stage. -/
abbrev VisitorTable := Vector (List Visitor) Stage.count

namespace VisitorTable

def empty : VisitorTable :=
  .replicate Stage.count []

def visitors (table : VisitorTable) (stage : Stage) : List Visitor :=
  getElem table stage.index stage.index_lt

/-- Puts what a rule is in a stage behind the visitors that the stage has. -/
def push (rule : Rule) (table : VisitorTable) (stage : Stage) : VisitorTable :=
  match Visitor.of? stage rule with
  | some visitor => table.set stage.index (table.visitors stage ++ [visitor]) stage.index_lt
  | none => table

theorem visitors_empty (stage : Stage) : empty.visitors stage = [] :=
  Vector.getElem_replicate _

theorem visitors_push (rule : Rule) (table : VisitorTable) (stage other : Stage) :
    (table.push rule other).visitors stage =
      table.visitors stage ++ if stage = other then (Visitor.of? stage rule).toList else [] := by
  cases contributed : Visitor.of? other rule with
  | none =>
      rw [push, contributed]
      by_cases same : stage = other
      · rw [if_pos same, same, contributed, Option.toList_none, List.append_nil]
      · rw [if_neg same, List.append_nil]
  | some visitor =>
      rw [push, contributed, visitors, Vector.getElem_set]
      by_cases same : stage = other
      · rw [if_pos same, if_pos (congrArg Stage.index same.symm), same, contributed,
          Option.toList_some]
      · rw [if_neg same, if_neg fun indices => same (Stage.index_inj.mp indices).symm,
          List.append_nil, visitors]

/-- A rule that is put into stages, each once, is in the end in those in which it takes part. -/
theorem visitors_foldl_push (rule : Rule) {stages : List Stage} (nodup : stages.Nodup)
    (table : VisitorTable) (stage : Stage) :
    (stages.foldl (push rule) table).visitors stage =
      table.visitors stage ++ if stage ∈ stages then (Visitor.of? stage rule).toList else [] := by
  induction stages generalizing table with
  | nil => simp
  | cons other stages ih =>
      obtain ⟨fresh, nodup⟩ := List.nodup_cons.mp nodup
      rw [List.foldl_cons, ih nodup, visitors_push, List.append_assoc]
      by_cases same : stage = other
      · subst same
        simp [fresh]
      · simp [same]

end VisitorTable

/-- The registered rules, each once and in the order in which their hooks run, and what they are in
each stage. -/
structure Schedule where
  rules : List Rule
  nodup : rules.Nodup
  table : VisitorTable
  filled : ∀ stage, table.visitors stage = rules.filterMap (Visitor.of? stage)

namespace Schedule

def empty : Schedule where
  rules := []
  nodup := .nil
  table := .empty
  filled := VisitorTable.visitors_empty

/-- Registers a rule for the stages in which it takes part. One that is registered already keeps its
place. -/
def register (schedule : Schedule) (rule : Rule) : Schedule :=
  if known : rule ∈ schedule.rules then schedule
  else
    { rules := schedule.rules ++ [rule]
      nodup := by
        have fresh := List.nodup_cons.mpr ⟨known, schedule.nodup⟩
        exact (List.perm_append_singleton rule schedule.rules).nodup_iff.mpr fresh
      table := Stage.all.foldl (VisitorTable.push rule) schedule.table
      filled := fun stage => by
        rw [VisitorTable.visitors_foldl_push rule Stage.nodup_all, if_pos stage.mem_all,
          schedule.filled, List.filterMap_append]
        cases contributed : Visitor.of? stage rule <;> simp [contributed] }

/-- Registers rules one after the other. -/
def ofRules (rules : List Rule) : Schedule :=
  rules.foldl register empty

def visitors (schedule : Schedule) (stage : Stage) : List Visitor :=
  schedule.table.visitors stage

/-- What a registered rule contributes to a stage. -/
def lookup? (schedule : Schedule) (rule : Rule) (stage : Stage) : Option Hooks :=
  ((schedule.visitors stage).find? (·.rule == rule)).map Visitor.hooks

def isActive (schedule : Schedule) (stage : Stage) : Bool :=
  !(schedule.visitors stage).isEmpty

end Schedule

end EstreeLowering
