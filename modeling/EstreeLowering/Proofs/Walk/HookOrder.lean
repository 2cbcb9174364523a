import EstreeLowering.Proofs.Walk.Lowering

/-!
A walk depends on its visitors through two sequences: the hooks that run on entering a node, and
those that run on leaving it.

Which visitor a hook belongs to is only reported. So how hooks are shared out among visitors, and
how the visitors for entering stand among those for leaving, makes no difference. The hooks may be
any functions here: later ones and the children see what the earlier ones left, which is the same
for both walks before each hook.
-/

namespace EstreeLowering

/-- What a hook does, without what it reports. -/
def Hook.effect (hook : Hook) (node : Node) (above : Option NodeKind) : Node × Option Node :=
  ((hook node above).node, (hook node above).replacement)

/-- What the hooks of the visitors do, in the order in which they run. -/
def effects (select : Hooks → Option Hook) (visitors : List Visitor) :
    List (Node → Option NodeKind → Node × Option Node) :=
  (visitors.filterMap fun visitor => select visitor.hooks).map Hook.effect

/-- The hooks for entering are the same in the same order, and so are the hooks for leaving. -/
structure SameHooks (visitors others : List Visitor) : Prop where
  entering : effects Hooks.entering? visitors = effects Hooks.entering? others
  leaving : effects Hooks.leaving? visitors = effects Hooks.leaving? others

/-- Progress that differs at most in what was reported. -/
structure Progress.Alike (progress other : Progress) : Prop where
  tally : progress.tally = other.tally
  limitReached : progress.limitReached = other.limitReached

def AlikeOutcomes (outcome other : Node × Progress) : Prop :=
  outcome.1 = other.1 ∧ outcome.2.Alike other.2

/-- The visitors change every tree alike, whatever it stands in and however far they walk, with the
same counts and the same news of the limit. -/
def SameWalks (visitors others : List Visitor) : Prop :=
  ∀ maxDepth depthLeft above node progress,
    AlikeOutcomes (visit visitors maxDepth depthLeft above node progress)
      (visit others maxDepth depthLeft above node progress)

variable {visitors others : List Visitor} {select : Hooks → Option Hook} {above : Option NodeKind}
  {before before' : Node × Progress} {rule rule' : Rule} {hook hook' : Hook}

theorem applyHook_limitReached (rule : Rule) (hook : Hook) (above : Option NodeKind) (node : Node)
    (progress : Progress) :
    (applyHook rule hook above node progress).2.limitReached = progress.limitReached := by
  rw [applyHook]
  cases (hook node above).replacement <;> rfl

theorem applyHook_alike (effect : hook.effect = hook'.effect)
    (alike : AlikeOutcomes before before') :
    AlikeOutcomes (applyHook rule hook above before.1 before.2)
      (applyHook rule' hook' above before'.1 before'.2) := by
  obtain ⟨tree, alike⟩ := alike
  have results : hook.effect before'.1 above = hook'.effect before'.1 above := by rw [effect]
  obtain ⟨left, replaced⟩ := Prod.mk.inj results
  refine ⟨?_, ?_, ?_⟩
  · rw [applyHook_fst, applyHook_fst, HookResult.outcome, HookResult.outcome, tree, left, replaced]
  · rw [applyHook_tally, applyHook_tally, tree, alike.tally, replaced]
  · rw [applyHook_limitReached, applyHook_limitReached, alike.limitReached]

/-- A visitor without such a hook is passed over. -/
theorem applyHooks_eq (select : Hooks → Option Hook) (visitors : List Visitor)
    (above : Option NodeKind) (before : Node × Progress) :
    applyHooks select visitors above before.1 before.2 =
      (visitors.filterMap fun visitor => (select visitor.hooks).map (visitor.rule, ·)).foldl
        (fun before call => applyHook call.1 call.2 above before.1 before.2) before := by
  induction visitors generalizing before with
  | nil => rfl
  | cons visitor visitors ih =>
      rw [applyHooks_cons, List.filterMap_cons]
      cases select visitor.hooks with
      | none => exact ih before
      | some hook => exact ih _

theorem foldl_applyHook_alike {calls calls' : List (Rule × Hook)}
    (effects : calls.map (·.2.effect) = calls'.map (·.2.effect))
    (alike : AlikeOutcomes before before') :
    AlikeOutcomes
      (calls.foldl (fun before call => applyHook call.1 call.2 above before.1 before.2) before)
      (calls'.foldl (fun before call => applyHook call.1 call.2 above before.1 before.2)
        before') := by
  induction calls generalizing calls' before before' with
  | nil =>
      obtain rfl := List.map_eq_nil_iff.mp effects.symm
      exact alike
  | cons call calls ih =>
      match calls' with
      | call' :: calls' =>
          obtain ⟨first, rest⟩ := List.cons.inj effects
          rw [List.foldl_cons, List.foldl_cons]
          exact ih rest (applyHook_alike first alike)

theorem applyHooks_alike (sequence : effects select visitors = effects select others)
    (above : Option NodeKind) (node : Node) {progress progress' : Progress}
    (alike : progress.Alike progress') :
    AlikeOutcomes (applyHooks select visitors above node progress)
      (applyHooks select others above node progress') := by
  have calls : AlikeOutcomes (node, progress) (node, progress') := ⟨rfl, alike⟩
  rw [applyHooks_eq select visitors above (node, progress),
    applyHooks_eq select others above (node, progress')]
  refine foldl_applyHook_alike ?_ calls
  simpa only [effects, List.map_filterMap, Option.map_map, Function.comp_def] using sequence

theorem throughList_alike {step step' : Node → Progress → Node × Progress}
    (each : ∀ node progress progress', progress.Alike progress' →
      AlikeOutcomes (step node progress) (step' node progress'))
    (nodes : List Node) {progress progress' : Progress} (alike : progress.Alike progress') :
    (throughList step nodes progress).1 = (throughList step' nodes progress').1 ∧
      (throughList step nodes progress).2.Alike (throughList step' nodes progress').2 := by
  induction nodes generalizing progress progress' with
  | nil => exact ⟨rfl, alike⟩
  | cons node nodes ih =>
      obtain ⟨tree, alike⟩ := each node progress progress' alike
      obtain ⟨behind, alike⟩ := ih alike
      exact ⟨congrArg₂ List.cons tree behind, alike⟩

theorem visit_alike (same : SameHooks visitors others) (maxDepth depthLeft : Nat)
    (above : Option NodeKind) (node : Node) {progress progress' : Progress}
    (alike : progress.Alike progress') :
    AlikeOutcomes (visit visitors maxDepth depthLeft above node progress)
      (visit others maxDepth depthLeft above node progress') := by
  induction depthLeft generalizing above node progress progress' with
  | zero =>
      obtain ⟨tally, limitReached⟩ := alike
      simp only [visit, Progress.reachLimit, limitReached]
      split
      · exact ⟨rfl, tally, limitReached⟩
      · exact ⟨rfl, tally, rfl⟩
  | succ depthLeft ih =>
      have counted : progress.countVisit.Alike progress'.countVisit :=
        ⟨by rw [countVisit_tally, countVisit_tally, alike.tally], alike.limitReached⟩
      have entered := applyHooks_alike same.entering above node counted
      rw [visit, visit]
      generalize applyHooks Hooks.entering? visitors above node progress.countVisit = here
        at entered ⊢
      generalize applyHooks Hooks.entering? others above node progress'.countVisit = there
        at entered ⊢
      -- Both walks go on with what entering left, which is the same node.
      obtain ⟨inner, progress⟩ := here
      obtain ⟨inner', progress'⟩ := there
      obtain ⟨same', alike⟩ := entered
      obtain rfl : inner = inner' := same'
      obtain ⟨children, alike⟩ := throughList_alike
        (fun child _ _ alike => ih (some inner.kind) child alike) inner.children alike
      simp only [children]
      exact applyHooks_alike same.leaving above _ alike

variable {rules rules' : List Rule}

/-- A schedule holds each rule once, and the hooks of the rules never stand in each other's way. So
walks with the same rules agree in all that they do and report. -/
theorem visit_convertingVisitors (nodup : rules.Nodup) (nodup' : rules'.Nodup)
    (same : ∀ rule, rule ∈ rules ↔ rule ∈ rules') (maxDepth depthLeft : Nat)
    (above : Option NodeKind) (node : Node) (progress : Progress) :
    visit (convertingVisitors rules) maxDepth depthLeft above node progress =
      visit (convertingVisitors rules') maxDepth depthLeft above node progress := by
  induction depthLeft generalizing above node progress with
  | zero => rfl
  | succ depthLeft ih =>
      have deeper : visit (convertingVisitors rules) maxDepth depthLeft =
          visit (convertingVisitors rules') maxDepth depthLeft := by
        funext above node progress
        exact ih above node progress
      simp only [visit, applyHooks_entering nodup, applyHooks_entering nodup',
        applyHooks_leaving nodup, applyHooks_leaving nodup', same, deeper]

namespace Pipeline

theorem runStage_of_same_rules (same : ∀ rule, rule ∈ rules ↔ rule ∈ rules') (maxDepth : Nat)
    (stage : Stage) (root : Node) :
    (ofRules rules maxDepth).runStage stage root =
      (ofRules rules' maxDepth).runStage stage root := by
  by_cases converting : stage = .converting
  · subst converting
    have empty : (convertingVisitors rules.eraseDups).isEmpty =
        (convertingVisitors rules'.eraseDups).isEmpty := by
      rw [Bool.eq_iff_iff, List.isEmpty_iff, List.isEmpty_iff, convertingVisitors_eq_nil_iff,
        convertingVisitors_eq_nil_iff, eraseDups_eq_nil_iff, eraseDups_eq_nil_iff,
        List.eq_nil_iff_forall_not_mem, List.eq_nil_iff_forall_not_mem]
      exact forall_congr' fun rule => not_congr (same rule)
    have walks := visit_convertingVisitors (Schedule.nodup_eraseDups rules)
      (Schedule.nodup_eraseDups rules') (by simpa [List.mem_eraseDups] using same) maxDepth maxDepth
      none root .start
    have depth (rules : List Rule) : (ofRules rules maxDepth).maxDepth = maxDepth := rfl
    simp only [runStage, visitors_converting, depth, empty, walk, walks]
  · simp only [runStage, visitors_of_ne_converting _ _ converting, List.isEmpty_nil, if_true]

theorem runStages_of_same_rules (same : ∀ rule, rule ∈ rules ↔ rule ∈ rules') (maxDepth : Nat)
    (stages : List Stage) (root : Node) :
    (ofRules rules maxDepth).runStages stages root =
      (ofRules rules' maxDepth).runStages stages root := by
  induction stages generalizing root with
  | nil => rfl
  | cons stage stages ih => simp only [runStages, runStage_of_same_rules same, ih]

end Pipeline

/-- A walk depends only on the order of the hooks for entering and on that of the hooks for leaving.
So a visitor with both may be split, one with either may change places with one with the other, and
a pipeline depends only on which rules it is given. -/
theorem sameWalks_of_sameHooks :
    (∀ visitors others, SameHooks visitors others → SameWalks visitors others) ∧
      (∀ front back rule first second entering leaving,
        SameWalks (front ++ ⟨rule, .both entering leaving⟩ :: back)
          (front ++ ⟨first, .enter entering⟩ :: ⟨second, .leave leaving⟩ :: back)) ∧
      (∀ front back first second entering leaving,
        SameWalks (front ++ ⟨first, .enter entering⟩ :: ⟨second, .leave leaving⟩ :: back)
          (front ++ ⟨second, .leave leaving⟩ :: ⟨first, .enter entering⟩ :: back)) ∧
      ∀ (rules others : List Rule), (∀ rule, rule ∈ rules ↔ rule ∈ others) → ∀ maxDepth,
        (Pipeline.ofRules rules maxDepth).runStage = (Pipeline.ofRules others maxDepth).runStage ∧
          (Pipeline.ofRules rules maxDepth).runStages =
            (Pipeline.ofRules others maxDepth).runStages := by
  have walks : ∀ visitors others, SameHooks visitors others → SameWalks visitors others :=
    fun visitors others same maxDepth depthLeft above node progress =>
      visit_alike same maxDepth depthLeft above node ⟨rfl, rfl⟩
  refine ⟨walks, ?_, ?_, ?_⟩
  · intro front back rule first second entering leaving
    apply walks
    constructor <;> simp [effects, Hooks.entering?, Hooks.leaving?]
  · intro front back first second entering leaving
    apply walks
    constructor <;> simp [effects, Hooks.entering?, Hooks.leaving?]
  · intro rules others same maxDepth
    constructor
    · funext stage root
      exact Pipeline.runStage_of_same_rules same maxDepth stage root
    · funext stages root
      exact Pipeline.runStages_of_same_rules same maxDepth stages root

/-- Both rules as one visitor, and as two the other way round. -/
theorem sameWalks_of_sameHooks_swapped :
    let visitors : List Visitor := [⟨.memberAccess, .both MemberAccess.enter Template.leave⟩]
    let others : List Visitor :=
      [⟨.templateLiteral, .leave Template.leave⟩, ⟨.memberAccess, .enter MemberAccess.enter⟩]
    let root := Node.expressionStatement
      (.template ["a", ""] [.access (.identifier "o") (.identifier "k") false])
    let result := Node.expressionStatement (.binary "+" (.stringLiteral "a")
      (.access (.identifier "o") (.stringLiteral "k") true))
    SameHooks visitors others ∧
      (visit visitors 3 3 none root .start).1 = result ∧
      (visit others 3 3 none root .start).1 = result ∧
      (∀ rule, rule ∈ [Rule.templateLiteral, .memberAccess, .templateLiteral] ↔ rule ∈ Rule.all) ∧
      (Pipeline.ofRules [.templateLiteral, .memberAccess, .templateLiteral] 3).runStages =
        (Pipeline.ofRules Rule.all 3).runStages := by
  intro visitors others root result
  have hooks : SameHooks visitors others := ⟨rfl, rfl⟩
  have rules : ∀ rule, rule ∈ [Rule.templateLiteral, .memberAccess, .templateLiteral] ↔
      rule ∈ Rule.all := by
    intro rule
    cases rule <;> decide
  obtain ⟨walks, _, _, pipelines⟩ := sameWalks_of_sameHooks
  have walked : (visit visitors 3 3 none root .start).1 = result := rfl
  exact ⟨hooks, walked, (walks visitors others hooks 3 3 none root .start).1 ▸ walked, rules,
    (pipelines _ _ rules 3).2⟩

end EstreeLowering
