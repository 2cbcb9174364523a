import EstreeLowering.Proofs.Walk.Log
import EstreeLowering.Proofs.Walk.Steps

namespace EstreeLowering

def Progress.warnings (progress : Progress) : Nat :=
  progress.events.toList.countP Event.isNotice

/-- How progress goes on while hooks report the events: nothing counted is lost, the limit stays
reached, and there is a warning more than the hooks gave exactly if the limit was not reached before
and is now. -/
structure Progress.GoesOn (reported : List Event) (before after : Progress) : Prop where
  visited : before.tally.visited ≤ after.tally.visited
  replaced : before.tally.replaced ≤ after.tally.replaced
  limitReached : before.limitReached = true → after.limitReached = true
  warnings : after.warnings = before.warnings + reported.countP Event.isNotice +
    if before.limitReached = after.limitReached then 0 else 1

namespace Moment

/-- What the hook that runs next reports, if one runs next. -/
def hookLog (moment : Moment) : List Event :=
  match moment.focus with
  | .hooks side (visitor :: _) above node =>
      match side.select visitor.hooks with
      | some hook => (hook node above).log visitor.rule
      | none => []
  | _ => []

/-- The counter is above its value on entry by the number of open nodes, so it is the same for all
children of a node, and it is not above the limit. -/
structure InBudget (entry maxDepth : UInt32) (moment : Moment) : Prop where
  counted : moment.depth.toNat = entry.toNat + moment.level
  within : moment.depth ≤ maxDepth

end Moment

variable {visitors : List Visitor} {maxDepth entry : UInt32} {first moment after last : Moment}
  {passed : List Moment} {before middle : Progress} {events others : List Event}

theorem Progress.warnings_record (progress : Progress) (events : List Event) :
    (progress.record events).warnings = progress.warnings + events.countP Event.isNotice := by
  simp [Progress.warnings, Progress.record]

namespace Progress.GoesOn

theorem of_counts {after : Progress} (visited : before.tally.visited ≤ after.tally.visited)
    (replaced : before.tally.replaced ≤ after.tally.replaced)
    (limitReached : after.limitReached = before.limitReached)
    (events : after.events = before.events) : GoesOn [] before after := by
  refine ⟨visited, replaced, limitReached.trans, ?_⟩
  simp [Progress.warnings, limitReached, events]

theorem refl (progress : Progress) : GoesOn [] progress progress :=
  of_counts (Nat.le_refl _) (Nat.le_refl _) rfl rfl

theorem countVisit (progress : Progress) : GoesOn [] progress progress.countVisit :=
  of_counts (Nat.le_succ _) (Nat.le_refl _) rfl rfl

theorem countReplacement (progress : Progress) : GoesOn [] progress progress.countReplacement :=
  of_counts (Nat.le_refl _) (Nat.le_succ _) rfl rfl

theorem trans {after : Progress} (one : GoesOn events before middle)
    (other : GoesOn others middle after) : GoesOn (events ++ others) before after := by
  refine ⟨one.visited.trans other.visited, one.replaced.trans other.replaced,
    fun reached => other.limitReached (one.limitReached reached), ?_⟩
  rw [other.warnings, one.warnings, List.countP_append]
  cases atFirst : before.limitReached with
  | true =>
      have between := one.limitReached atFirst
      simp only [between, other.limitReached between, if_true]
      omega
  | false =>
      cases between : middle.limitReached with
      | true =>
          simp only [other.limitReached between, if_true, Bool.false_eq_true, if_false]
          omega
      | false =>
          simp only [if_true]
          omega

theorem record (events : List Event) (progress : Progress) :
    GoesOn events progress (progress.record events) := by
  have same : progress.limitReached = (progress.record events).limitReached := rfl
  refine ⟨Nat.le_refl _, Nat.le_refl _, id, ?_⟩
  rw [warnings_record, if_pos same, Nat.add_zero]

/-- Only here a walk warns by itself. -/
theorem reachLimit (maxDepth : Nat) (progress : Progress) :
    GoesOn [] progress (progress.reachLimit maxDepth) := by
  cases reached : progress.limitReached with
  | true =>
      simp only [Progress.reachLimit, reached, if_true]
      exact refl progress
  | false =>
      simp only [Progress.reachLimit, reached, Bool.false_eq_true, if_false]
      refine ⟨Nat.le_refl _, Nat.le_refl _, fun _ => rfl, ?_⟩
      rw [reached]
      exact warnings_record progress [.depthExceeded maxDepth]

theorem applyHook (rule : Rule) (hook : Hook) (above : Option NodeKind) (node : Node)
    (progress : Progress) :
    GoesOn ((hook node above).log rule) progress
      (EstreeLowering.applyHook rule hook above node progress).2 := by
  rw [EstreeLowering.applyHook, HookResult.log]
  cases replaced : (hook node above).replacement with
  | none =>
      rw [Option.map_none, Option.toList_none, List.append_nil]
      exact record _ progress
  | some replacement =>
      have recorded := (record (hook node above).events progress).trans (record
        [.nodeReplaced rule (hook node above).node.typeName replacement.typeName] _)
      simpa only [Option.map_some, Option.toList_some, List.append_nil] using
        recorded.trans (countReplacement _)

end Progress.GoesOn

theorem Moment.InBudget.next (budget : moment.InBudget entry maxDepth)
    (step : moment.Next visitors maxDepth after) : after.InBudget entry maxDepth := by
  obtain ⟨counted, within⟩ := budget
  cases step with
  | openNode below up =>
      have room := UInt32.lt_iff_toNat_lt.mp below
      constructor
      · simp only [Moment.level] at counted ⊢
        omega
      · exact UInt32.le_iff_toNat_le.mpr (up.trans_le room)
  | closeNode down =>
      have room := UInt32.le_iff_toNat_le.mp within
      constructor
      · simp only [Moment.level] at counted ⊢
        omega
      · exact UInt32.le_iff_toNat_le.mpr (Nat.le_of_succ_le (down.symm.trans_le room))
  | limit | call | skip | entered | descend | ascend | leave => exact ⟨counted, within⟩

theorem Moment.Next.goesOn (step : moment.Next visitors maxDepth after) :
    moment.progress.GoesOn moment.hookLog after.progress := by
  cases step with
  | limit => exact .reachLimit _ _
  | openNode => exact .countVisit _
  | call found =>
      simp only [Moment.hookLog, found]
      exact .applyHook _ _ _ _ _
  | skip missing =>
      simp only [Moment.hookLog, missing]
      exact .refl _
  | entered | descend | ascend | leave | closeNode => exact .refl _

theorem Runs.inBudget (runs : Runs visitors maxDepth first passed last)
    (budget : first.InBudget entry maxDepth) : last.InBudget entry maxDepth := by
  induction runs with
  | nil => exact budget
  | cons step _ ih => exact ih (budget.next step)

theorem Runs.goesOn (runs : Runs visitors maxDepth first passed last) :
    first.progress.GoesOn (passed.flatMap Moment.hookLog) last.progress := by
  induction runs with
  | nil => exact .refl _
  | cons step _ ih => exact step.goesOn.trans ih

theorem visit_at_limit (visitors : List Visitor) (maxDepth : Nat) (above : Option NodeKind)
    (node : Node) (progress : Progress) :
    (visit visitors maxDepth 0 above node progress).1 = node ∧
      (visit visitors maxDepth 0 above node progress).2.tally = progress.tally := by
  refine ⟨rfl, ?_⟩
  rw [visit, Progress.reachLimit]
  split <;> rfl

/-- A visit from a depth within the limit ends. On its way the counter stays within the limit, as
far above its value on entry as there are nodes open, and at the end it is at that value again; the
counts never go down, the limit stays reached once it is, and the only warning of the walk itself is
given when it is. A visit at the limit leaves the node and the counts as they are. -/
theorem visit_within_budget (visitors : List Visitor) {maxDepth depth : UInt32}
    (room : depth ≤ maxDepth) (above : Option NodeKind) (node : Node) (progress : Progress) :
    let outcome :=
      visit visitors maxDepth.toNat (maxDepth.toNat - depth.toNat) above node progress
    let first : Moment := ⟨.visit above node, [], depth, progress⟩
    let last : Moment := ⟨.done outcome.1, [], depth, outcome.2⟩
    (∃ whole, Runs visitors maxDepth first whole last ∧
      (∀ after, ¬ last.Next visitors maxDepth after) ∧
      ∀ passed moment, Runs visitors maxDepth first passed moment →
        (∃ rest, whole = passed ++ rest ∧ Runs visitors maxDepth moment rest last) ∧
        moment.InBudget depth maxDepth ∧
        ∀ between later, Runs visitors maxDepth moment between later →
          moment.progress.GoesOn (between.flatMap Moment.hookLog) later.progress) ∧
    (depth = maxDepth → outcome.1 = node ∧ outcome.2.tally = progress.tally) := by
  intro outcome first last
  have levels : depth.toNat + (maxDepth.toNat - depth.toNat) = maxDepth.toNat :=
    Nat.add_sub_cancel' (UInt32.le_iff_toNat_le.mp room)
  obtain ⟨whole, runs⟩ : Reaches visitors maxDepth first last :=
    reaches_visit _ levels above node [] progress
  have ended : ∀ after, ¬ last.Next visitors maxDepth after := fun _ => Moment.not_next_of_done
  have budget : first.InBudget depth maxDepth := ⟨rfl, room⟩
  refine ⟨⟨whole, runs, ended, fun passed moment part => ?_⟩, fun atLimit => ?_⟩
  · exact ⟨runs.rest ended part, part.inBudget budget, fun _ _ => Runs.goesOn⟩
  · subst atLimit
    have noLevels : outcome = visit visitors depth.toNat 0 above node progress := by
      simp only [outcome, Nat.sub_self]
    rw [noLevels]
    exact visit_at_limit visitors depth.toNat above node progress

/-- A hook that puts every node into a statement ends at the limit like any other one. -/
theorem visit_within_budget_enclosing :
    let enclose : Hook := fun node _ => ⟨node, some (.expressionStatement node), []⟩
    let visitors : List Visitor := [⟨.memberAccess, .enter enclose⟩]
    let name := Node.identifier "x"
    let progress : Progress := ⟨⟨2, 2⟩, true, #[
      .nodeReplaced .memberAccess "Identifier" "ExpressionStatement",
      .nodeReplaced .memberAccess "Identifier" "ExpressionStatement", .depthExceeded 4]⟩
    let first : Moment := ⟨.visit none name, [], 2, .start⟩
    let opened : Moment := ⟨.hooks .entering visitors none name, [], 3, Progress.start.countVisit⟩
    let last : Moment :=
      ⟨.done (.expressionStatement (.expressionStatement name)), [], 2, progress⟩
    (2 : UInt32) ≤ 4 ∧ Reaches visitors 4 first last ∧ Runs visitors 4 first [first] opened ∧
      opened.InBudget 2 4 ∧ Reaches visitors 4 opened last ∧ progress.warnings = 1 ∧
      (visit visitors 4 0 none name progress).1 = name := by
  intro enclose visitors name progress first opened last
  have room : (2 : UInt32) ≤ 4 := by decide
  have opening : Runs visitors 4 first [first] opened := .cons (.openNode (by decide) rfl) .nil
  obtain ⟨⟨whole, runs, _, onTheWay⟩, _⟩ := visit_within_budget visitors room none name .start
  obtain ⟨⟨rest, _, onward⟩, budget, _⟩ := onTheWay [first] opened opening
  obtain ⟨_, atLimit⟩ := visit_within_budget visitors (UInt32.le_refl 4) none name progress
  exact ⟨room, ⟨whole, runs⟩, opening, budget, ⟨rest, onward⟩, rfl, (atLimit rfl).1⟩

end EstreeLowering
