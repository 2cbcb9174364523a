import EstreeLowering.Pipeline
import EstreeLowering.Proofs.Walk.Registration
import EstreeLowering.Proofs.Walk.Rewriting

/-!
The walk of the converting stage without its state.

A walk hands its progress from node to node, but no hook looks at it. So the tree that a walk
leaves and what it adds to the counts are functions of the tree alone, and these two functions
recurse through the children independently of each other. Everything about trees and counts is
proved of them.
-/

namespace EstreeLowering

namespace Tally

def sum (tallies : List Tally) : Tally :=
  tallies.foldr add zero

@[simp] theorem add_zero (tally : Tally) : tally.add zero = tally := rfl

@[simp] theorem zero_add (tally : Tally) : zero.add tally = tally := by
  simp only [zero, add, Nat.zero_add]

theorem add_assoc (first second third : Tally) :
    (first.add second).add third = first.add (second.add third) := by
  simp only [add, Nat.add_assoc]

@[simp] theorem sum_nil : sum [] = zero := rfl

@[simp] theorem sum_cons (tally : Tally) (tallies : List Tally) :
    sum (tally :: tallies) = tally.add (sum tallies) := rfl

theorem sum_append (tallies others : List Tally) :
    sum (tallies ++ others) = (sum tallies).add (sum others) := by
  induction tallies with
  | nil => rw [List.nil_append, sum_nil, zero_add]
  | cons tally tallies ih => rw [List.cons_append, sum_cons, sum_cons, ih, add_assoc]

theorem replaced_sum (tallies : List Tally) :
    (sum tallies).replaced = (tallies.map Tally.replaced).sum := by
  induction tallies with
  | nil => rfl
  | cons tally tallies ih => simp only [sum_cons, add, ih, List.map_cons, List.sum_cons]

theorem visited_sum (tallies : List Tally) :
    (sum tallies).visited = (tallies.map Tally.visited).sum := by
  induction tallies with
  | nil => rfl
  | cons tally tallies ih => simp only [sum_cons, add, ih, List.map_cons, List.sum_cons]

end Tally

/-- What the entering hooks leave in a slot. -/
def entered (rules : List Rule) (above : Option NodeKind) (node : Node) : Node :=
  if .memberAccess ∈ rules then (MemberAccess.enter node above).outcome else node

/-- What the leaving hooks leave in a slot. -/
def exited (rules : List Rule) (above : Option NodeKind) (node : Node) : Node :=
  if .templateLiteral ∈ rules then (Template.leave node above).outcome else node

/-- How many replacements the leaving hooks make in a slot. -/
def replacements (rules : List Rule) (above : Option NodeKind) (node : Node) : Nat :=
  if .templateLiteral ∈ rules ∧ (Template.leave node above).replacement.isSome then 1 else 0

section

variable {rules : List Rule} {above : Option NodeKind} {parent : NodeKind} {node child : Node}

theorem entered_of_keptBy (kept : KeptBy .memberAccess above node) :
    entered rules above node = node := by
  simp [entered, enter_of_keptBy kept]

theorem exited_of_keptBy (kept : KeptBy .templateLiteral above node) :
    exited rules above node = node ∧ replacements rules above node = 0 := by
  simp [exited, replacements, leave_of_keptBy kept]

theorem exited_of_rewrites {result : Node} (member : .templateLiteral ∈ rules)
    (rewrites : Rewrites .templateLiteral parent node result) :
    exited rules (some parent) node = result ∧ replacements rules (some parent) node = 1 := by
  simp [exited, replacements, HookResult.outcome, replacement_leave rewrites, member]

theorem exited_template (member : .templateLiteral ∈ rules) (untagged : parent ≠ .taggedTemplate)
    (quasis : List TemplateElement) (expressions : List Node) :
    exited rules (some parent) (.templateLiteral quasis expressions) =
        Template.flatten quasis expressions ∧
      replacements rules (some parent) (.templateLiteral quasis expressions) = 1 :=
  exited_of_rewrites member (.template untagged)

theorem entered_cases (rules : List Rule) (above : Option NodeKind) (node : Node) :
    (entered rules above node = node ∧ (.memberAccess ∈ rules → KeptBy .memberAccess above node)) ∨
      ∃ parent, above = some parent ∧ .memberAccess ∈ rules ∧
        Rewrites .memberAccess parent node (entered rules above node) := by
  by_cases member : .memberAccess ∈ rules
  · by_cases kept : KeptBy .memberAccess above node
    · exact .inl ⟨entered_of_keptBy kept, fun _ => kept⟩
    · obtain ⟨parent, result, rfl, rewrites⟩ := exists_rewrites_of_not_keptBy kept
      exact .inr ⟨parent, rfl, member, by rwa [entered, if_pos member, outcome_enter rewrites]⟩
  · exact .inl ⟨if_neg member, fun impossible => absurd impossible member⟩

theorem exited_cases (rules : List Rule) (above : Option NodeKind) (node : Node) :
    (exited rules above node = node ∧ replacements rules above node = 0 ∧
        (.templateLiteral ∈ rules → KeptBy .templateLiteral above node)) ∨
      ∃ parent, above = some parent ∧ .templateLiteral ∈ rules ∧
        Rewrites .templateLiteral parent node (exited rules above node) ∧
        replacements rules above node = 1 := by
  by_cases member : .templateLiteral ∈ rules
  · by_cases kept : KeptBy .templateLiteral above node
    · obtain ⟨same, uncounted⟩ := exited_of_keptBy kept
      exact .inl ⟨same, uncounted, fun _ => kept⟩
    · obtain ⟨parent, result, rfl, rewrites⟩ := exists_rewrites_of_not_keptBy kept
      obtain ⟨flattened, counted⟩ := exited_of_rewrites member rewrites
      exact .inr ⟨parent, rfl, member, flattened ▸ rewrites, counted⟩
  · exact .inl ⟨if_neg member, if_neg fun both => member both.1,
      fun impossible => absurd impossible member⟩

theorem entered_eq_or (rules : List Rule) (above : Option NodeKind) (node : Node) :
    entered rules above node = node ∨ ∃ object key optional,
      node = .member object (.identifier key) false optional ∧
        entered rules above node = .member object (.stringLiteral key) true optional := by
  rcases entered_cases rules above node with ⟨same, _⟩ | ⟨parent, _, _, rewrites⟩
  · exact .inl same
  · generalize entered rules above node = result at rewrites
    cases rewrites with
    | access => exact .inr ⟨_, _, _, rfl, rfl⟩

theorem exited_eq_or (rules : List Rule) (above : Option NodeKind) (node : Node) :
    exited rules above node = node ∨ ∃ quasis expressions,
      node = .templateLiteral quasis expressions ∧
        exited rules above node = Template.flatten quasis expressions := by
  rcases exited_cases rules above node with ⟨same, _, _⟩ | ⟨parent, _, _, rewrites, _⟩
  · exact .inl same
  · generalize exited rules above node = result at rewrites
    cases rewrites with
    | template => exact .inr ⟨_, _, rfl, rfl⟩

@[simp] theorem kind_entered (rules : List Rule) (above : Option NodeKind) (node : Node) :
    (entered rules above node).kind = node.kind := by
  rcases entered_eq_or rules above node with same | ⟨object, key, optional, rfl, same⟩ <;> rw [same]
  rfl

@[simp] theorem stringLiteral?_entered (rules : List Rule) (above : Option NodeKind) (node : Node) :
    (entered rules above node).stringLiteral? = node.stringLiteral? := by
  rcases entered_eq_or rules above node with same | ⟨object, key, optional, rfl, same⟩ <;> rw [same]
  rfl

theorem mem_children_entered (isChild : child ∈ (entered rules above node).children) :
    child ∈ node.children ∨ child.isStringLiteral = true := by
  rcases entered_eq_or rules above node with same | ⟨object, key, optional, rfl, same⟩
  · rw [same] at isChild
    exact .inl isChild
  · simp only [same, Node.children, List.mem_cons, List.not_mem_nil, or_false] at isChild ⊢
    rcases isChild with isObject | isKey
    · exact .inl (.inl isObject)
    · exact .inr (by rw [isKey]; rfl)

/-- What is read off a name and off the string with its text alike is read off the children as
before. -/
theorem flatMap_children_entered {α : Type} {read : Node → List α}
    (alike : ∀ text, read (.stringLiteral text) = read (.identifier text)) (rules : List Rule)
    (above : Option NodeKind) (node : Node) :
    (entered rules above node).children.flatMap read = node.children.flatMap read := by
  rcases entered_eq_or rules above node with same | ⟨object, key, optional, rfl, same⟩
  · rw [same]
  · rw [same]
    simp only [Node.children, List.flatMap_cons, alike]

theorem mem_children_entered_of_mem (isChild : child ∈ node.children) :
    child ∈ (entered rules above node).children ∨ ∃ name, child = .identifier name := by
  rcases entered_eq_or rules above node with same | ⟨object, key, optional, rfl, same⟩
  · rw [same]
    exact .inl isChild
  · simp only [same, Node.children, List.mem_cons, List.not_mem_nil, or_false] at isChild ⊢
    rcases isChild with isObject | isKey
    · exact .inl (.inl isObject)
    · exact .inr ⟨key, isKey⟩

end

/-- The tree that a walk of `depthLeft` levels leaves. -/
def lowered (rules : List Rule) : Nat → Option NodeKind → Node → Node
  | 0, _, node => node
  | depthLeft + 1, above, node =>
      let inner := entered rules above node
      exited rules above (inner.mapChildren (lowered rules depthLeft (some inner.kind)))

/-- The node of a slot between its entering and its leaving hooks. -/
def walked (rules : List Rule) (depthLeft : Nat) (above : Option NodeKind) (node : Node) : Node :=
  let inner := entered rules above node
  inner.mapChildren (lowered rules depthLeft (some inner.kind))

theorem lowered_succ (rules : List Rule) (depthLeft : Nat) (above : Option NodeKind)
    (node : Node) :
    lowered rules (depthLeft + 1) above node =
      exited rules above (walked rules depthLeft above node) := rfl

section

variable {rules : List Rule} {depthLeft : Nat} {above : Option NodeKind} {parent : NodeKind}
  {node : Node} {quasis : List TemplateElement} {expressions : List Node}

@[simp] theorem kind_walked (rules : List Rule) (depthLeft : Nat) (above : Option NodeKind)
    (node : Node) : (walked rules depthLeft above node).kind = node.kind := by
  simp [walked]

theorem lowered_of_keptBy (kept : .templateLiteral ∈ rules → KeptBy .templateLiteral above node) :
    lowered rules (depthLeft + 1) above node = walked rules depthLeft above node := by
  rw [lowered_succ]
  by_cases member : .templateLiteral ∈ rules
  · have keptWalked := (keptBy_template_congr (kind_walked rules depthLeft above node)).mpr
      (kept member)
    exact (exited_of_keptBy keptWalked).1
  · simp [exited, member]

theorem walked_template :
    walked rules depthLeft above (.templateLiteral quasis expressions) =
      .templateLiteral quasis
        (expressions.map (lowered rules depthLeft (some .templateLiteral))) := by
  have kept : KeptBy .memberAccess above (.templateLiteral quasis expressions) := by
    simp [KeptBy, rewritable_access_iff]
  rw [walked, entered_of_keptBy kept]
  rfl

theorem lowered_template (member : .templateLiteral ∈ rules)
    (untagged : parent ≠ .taggedTemplate) :
    lowered rules (depthLeft + 1) (some parent) (.templateLiteral quasis expressions) =
      Template.flatten quasis
        (expressions.map (lowered rules depthLeft (some .templateLiteral))) := by
  rw [lowered_succ, walked_template, (exited_template member untagged _ _).1]

end

/-- What a walk of `depthLeft` levels counts. -/
def tallied (rules : List Rule) : Nat → Option NodeKind → Node → Tally
  | 0, _, _ => .zero
  | depthLeft + 1, above, node =>
      let inner := entered rules above node
      (Tally.mk 1 0).add
        ((Tally.sum (inner.children.map (tallied rules depthLeft (some inner.kind)))).add
          ⟨0, replacements rules above (walked rules depthLeft above node)⟩)

theorem throughList_fst {step : α → σ → α × σ} {change : α → α}
    (stateless : ∀ element state, (step element state).1 = change element) (elements : List α)
    (state : σ) : (throughList step elements state).1 = elements.map change := by
  induction elements generalizing state with
  | nil => rfl
  | cons element elements ih =>
      simp only [throughList, List.map_cons, stateless, ih]

theorem throughList_tally {step : Node → Progress → Node × Progress} {count : Node → Tally}
    (additive : ∀ node progress,
      (step node progress).2.tally = progress.tally.add (count node))
    (nodes : List Node) (progress : Progress) :
    (throughList step nodes progress).2.tally =
      progress.tally.add (Tally.sum (nodes.map count)) := by
  induction nodes generalizing progress with
  | nil => rfl
  | cons node nodes ih =>
      simp only [throughList, List.map_cons, Tally.sum_cons, ih, additive, Tally.add_assoc]

section

variable (rule : Rule) (hook : Hook) (above : Option NodeKind) (node : Node) (progress : Progress)

theorem applyHook_fst :
    (applyHook rule hook above node progress).1 = (hook node above).outcome := by
  cases replaced : (hook node above).replacement with
  | none => simp only [applyHook, HookResult.outcome, replaced, Option.getD_none]
  | some replacement => simp only [applyHook, HookResult.outcome, replaced, Option.getD_some]

theorem applyHook_tally :
    (applyHook rule hook above node progress).2.tally =
      progress.tally.add ⟨0, if (hook node above).replacement.isSome then 1 else 0⟩ := by
  cases replaced : (hook node above).replacement with
  | none => simp [applyHook, replaced, Progress.record, Tally.add]
  | some replacement =>
      simp [applyHook, replaced, Progress.record, Progress.countReplacement, Tally.add]

end

theorem applyHooks_cons (select : Hooks → Option Hook) (visitor : Visitor) (visitors : List Visitor)
    (above : Option NodeKind) (node : Node) (progress : Progress) :
    applyHooks select (visitor :: visitors) above node progress =
      match select visitor.hooks with
      | some hook =>
          let applied := applyHook visitor.rule hook above node progress
          applyHooks select visitors above applied.1 applied.2
      | none => applyHooks select visitors above node progress := by
  unfold applyHooks
  rw [List.foldl_cons]
  cases select visitor.hooks <;> rfl

theorem countVisit_tally (progress : Progress) :
    progress.countVisit.tally = progress.tally.add ⟨1, 0⟩ := rfl

/-- The visitors that the rules of a list are in the converting stage. -/
def convertingVisitors (rules : List Rule) : List Visitor :=
  rules.filterMap (Visitor.of? .converting)

/-- A schedule holds a rule at most once. So if one rule alone has a hook of that sort, the hook
runs once where that rule is registered, and none runs elsewhere. -/
theorem applyHooks_sole {select : Hooks → Option Hook} {sole : Rule} {hook : Hook}
    (contributes : ∀ rule : Rule, ∃ hooks, rule.hooks? .converting = some hooks ∧
      select hooks = if rule = sole then some hook else none)
    {rules : List Rule} (nodup : rules.Nodup) (above : Option NodeKind) (node : Node)
    (progress : Progress) :
    applyHooks select (convertingVisitors rules) above node progress =
      if sole ∈ rules then applyHook sole hook above node progress else (node, progress) := by
  induction rules generalizing node progress with
  | nil => rfl
  | cons rule rules ih =>
      obtain ⟨fresh, others⟩ := List.nodup_cons.mp nodup
      obtain ⟨hooks, active, selected⟩ := contributes rule
      have first : convertingVisitors (rule :: rules) = ⟨rule, hooks⟩ :: convertingVisitors rules :=
        List.filterMap_cons_some (by rw [Visitor.of?, active]; rfl)
      rw [first, applyHooks_cons]
      by_cases same : rule = sole
      · subst same
        simp only [selected, ih others, if_neg fresh, if_true, List.mem_cons_self]
      · have elsewhere : sole ∈ rule :: rules ↔ sole ∈ rules := by
          simp [Ne.symm same]
        simp only [selected, ih others, if_neg same, elsewhere]

theorem applyHooks_entering {rules : List Rule} (nodup : rules.Nodup) (above : Option NodeKind)
    (node : Node) (progress : Progress) :
    applyHooks Hooks.entering? (convertingVisitors rules) above node progress =
      if .memberAccess ∈ rules then applyHook .memberAccess MemberAccess.enter above node progress
      else (node, progress) := by
  refine applyHooks_sole (fun rule => ?_) nodup above node progress
  cases rule <;> exact ⟨_, rfl, rfl⟩

theorem applyHooks_leaving {rules : List Rule} (nodup : rules.Nodup) (above : Option NodeKind)
    (node : Node) (progress : Progress) :
    applyHooks Hooks.leaving? (convertingVisitors rules) above node progress =
      if .templateLiteral ∈ rules then applyHook .templateLiteral Template.leave above node progress
      else (node, progress) := by
  refine applyHooks_sole (fun rule => ?_) nodup above node progress
  cases rule <;> exact ⟨_, rfl, rfl⟩

section

variable {rules : List Rule} (nodup : rules.Nodup) (above : Option NodeKind) (node : Node)
  (progress : Progress)

include nodup

theorem entering_fst :
    (applyHooks Hooks.entering? (convertingVisitors rules) above node progress).1 =
      entered rules above node := by
  rw [applyHooks_entering nodup, entered]
  split
  · rw [applyHook_fst]
  · rfl

theorem entering_tally :
    (applyHooks Hooks.entering? (convertingVisitors rules) above node progress).2.tally =
      progress.tally := by
  rw [applyHooks_entering nodup]
  split
  · rw [applyHook_tally, replacement_enter]
    rfl
  · rfl

theorem leaving_fst :
    (applyHooks Hooks.leaving? (convertingVisitors rules) above node progress).1 =
      exited rules above node := by
  rw [applyHooks_leaving nodup, exited]
  split
  · rw [applyHook_fst]
  · rfl

theorem leaving_tally :
    (applyHooks Hooks.leaving? (convertingVisitors rules) above node progress).2.tally =
      progress.tally.add ⟨0, replacements rules above node⟩ := by
  rw [applyHooks_leaving nodup, replacements]
  by_cases member : .templateLiteral ∈ rules
  · rw [if_pos member, applyHook_tally]
    simp only [member, true_and]
  · simp only [member, false_and, if_false]
    rfl

end

section

variable {rules : List Rule} (nodup : rules.Nodup) (maxDepth depthLeft : Nat)
  (above : Option NodeKind) (node : Node) (progress : Progress)

include nodup

theorem visit_fst :
    (visit (convertingVisitors rules) maxDepth depthLeft above node progress).1 =
      lowered rules depthLeft above node := by
  induction depthLeft generalizing above node progress with
  | zero => rfl
  | succ depthLeft ih =>
      simp only [visit, lowered, Node.mapChildren, entering_fst nodup, leaving_fst nodup,
        throughList_fst fun child progress => ih _ child progress]

theorem visit_tally :
    (visit (convertingVisitors rules) maxDepth depthLeft above node progress).2.tally =
      progress.tally.add (tallied rules depthLeft above node) := by
  induction depthLeft generalizing above node progress with
  | zero =>
      simp only [visit, tallied, Tally.add_zero, Progress.reachLimit]
      split <;> rfl
  | succ depthLeft ih =>
      simp only [visit, tallied, walked, Node.mapChildren, entering_fst nodup,
        entering_tally nodup, leaving_tally nodup,
        throughList_fst fun child progress => visit_fst nodup maxDepth depthLeft _ child progress,
        throughList_tally fun child progress => ih _ child progress, countVisit_tally,
        Tally.add_assoc]

end

/-- A walk changes nothing in a tree that is settled as far as the walk goes. -/
theorem lowered_of_settled {rules : List Rule} {depthLeft : Nat} {above : Option NodeKind}
    {node : Node} (settled : Settled rules depthLeft above node) :
    lowered rules depthLeft above node = node ∧
      (tallied rules depthLeft above node).replaced = 0 := by
  induction depthLeft generalizing above node with
  | zero => exact ⟨rfl, rfl⟩
  | succ depthLeft ih =>
      obtain ⟨kept, below⟩ := settled_succ_iff.mp settled
      have unentered : entered rules above node = node := by
        rcases entered_cases rules above node with ⟨same, _⟩ | ⟨parent, rfl, member, rewrites⟩
        · exact same
        · exact absurd ⟨_, rewrites⟩ (kept _ member parent rfl)
      have unexited : exited rules above node = node ∧ replacements rules above node = 0 := by
        rcases exited_cases rules above node with
          ⟨same, none, _⟩ | ⟨parent, rfl, member, rewrites, _⟩
        · exact ⟨same, none⟩
        · exact absurd ⟨_, rewrites⟩ (kept _ member parent rfl)
      have unchanged : walked rules depthLeft above node = node := by
        rw [walked, unentered]
        exact Node.mapChildren_of_unchanged fun child isChild => (ih (below child isChild)).1
      have uncounted : (Tally.sum
          (node.children.map (tallied rules depthLeft (some node.kind)))).replaced = 0 := by
        rw [Tally.replaced_sum, List.map_map, List.sum_eq_zero_iff_forall_eq_nat]
        intro count counted
        obtain ⟨child, isChild, rfl⟩ := List.mem_map.mp counted
        exact (ih (below child isChild)).2
      constructor
      · rw [lowered_succ, unchanged, unexited.1]
      · simp only [tallied, unentered, unchanged, unexited.2, Tally.add, uncounted]

namespace Pipeline

variable (rules : List Rule) (maxDepth : Nat) (root : Node)

theorem visitors_converting :
    (ofRules rules maxDepth).schedule.visitors .converting = convertingVisitors rules.eraseDups :=
  Schedule.visitors_ofRules rules .converting

theorem visitors_of_ne_converting {stage : Stage} (another : stage ≠ .converting) :
    (ofRules rules maxDepth).schedule.visitors stage = [] := by
  rw [ofRules, Schedule.visitors_ofRules]
  refine List.filterMap_eq_nil_iff.mpr fun rule _ => ?_
  cases stage with
  | converting => exact absurd rfl another
  | _ => cases rule <;> rfl

theorem convertingVisitors_eq_nil_iff {rules : List Rule} :
    convertingVisitors rules = [] ↔ rules = [] := by
  cases rules with
  | nil => simp [convertingVisitors]
  | cons rule rules => cases rule <;> simp [convertingVisitors, Visitor.of?, Rule.hooks?]

theorem eraseDups_eq_nil_iff {rules : List Rule} : rules.eraseDups = [] ↔ rules = [] := by
  cases rules with
  | nil => simp
  | cons rule rules => simp [List.eraseDups_cons]

theorem runStage_of_no_visitors {pipeline : Pipeline} {stage : Stage}
    (idle : pipeline.schedule.visitors stage = []) :
    (pipeline.runStage stage root).1 = root ∧
      (pipeline.runStage stage root).2.tally = .zero := by
  simp only [runStage, idle, List.isEmpty_nil, if_true, and_self]

theorem runStage_of_no_rules (stage : Stage) :
    ((ofRules [] maxDepth).runStage stage root).1 = root ∧
      ((ofRules [] maxDepth).runStage stage root).2.tally = .zero :=
  runStage_of_no_visitors root (Schedule.visitors_ofRules [] stage)

theorem runStage_of_rules {rules : List Rule} (registered : rules ≠ []) :
    ((ofRules rules maxDepth).runStage .converting root).1 =
        lowered rules.eraseDups maxDepth none root ∧
      ((ofRules rules maxDepth).runStage .converting root).2.tally =
        tallied rules.eraseDups maxDepth none root := by
  have nodup := Schedule.nodup_eraseDups rules
  have busy : ¬ (convertingVisitors rules.eraseDups).isEmpty = true := by
    rw [List.isEmpty_iff, convertingVisitors_eq_nil_iff, eraseDups_eq_nil_iff]
    exact registered
  simp only [runStage, visitors_converting, if_neg busy, walk]
  refine ⟨visit_fst nodup maxDepth maxDepth none root .start, ?_⟩
  exact (visit_tally nodup maxDepth maxDepth none root .start).trans (Tally.zero_add _)

/-- Without rules the stage is skipped, which a walk without hooks could not be told from by the
tree or the replacements. -/
theorem runStage_converting :
    ((ofRules rules maxDepth).runStage .converting root).1 =
        lowered rules.eraseDups maxDepth none root ∧
      ((ofRules rules maxDepth).runStage .converting root).2.tally.replaced =
        (tallied rules.eraseDups maxDepth none root).replaced := by
  cases rules with
  | nil =>
      obtain ⟨tree, tally⟩ := runStage_of_no_rules maxDepth root .converting
      have settled : Settled [] maxDepth none root := fun _ _ _ _ _ rule member => nomatch member
      obtain ⟨unchanged, uncounted⟩ := lowered_of_settled settled
      rw [tree, tally]
      exact ⟨unchanged.symm, uncounted.symm⟩
  | cons rule rules =>
      obtain ⟨tree, tally⟩ := runStage_of_rules maxDepth root (List.cons_ne_nil rule rules)
      exact ⟨tree, congrArg Tally.replaced tally⟩

end Pipeline

end EstreeLowering
