import EstreeLowering.Proofs.Node.Equality
import EstreeLowering.Proofs.Node.Observation
import EstreeLowering.Proofs.Rule.Template
import EstreeLowering.Proofs.Walk.Lowering

namespace EstreeLowering

/-- Equal nodes and equal replacements, if any, with the same events. -/
structure HookResult.Alike (result other : HookResult) : Prop where
  node : result.node.Equals other.node
  replacement : Option.Rel Node.Equals result.replacement other.replacement
  events : result.events = other.events

def Hook.RespectsEquality (hook : Hook) : Prop :=
  ∀ node other above, node.Equals other → (hook node above).Alike (hook other above)

def EqualOutcomes (outcome other : Node × Progress) : Prop :=
  outcome.1.Equals other.1 ∧ outcome.2 = other.2

variable {visitors : List Visitor} {select : Hooks → Option Hook} {above : Option NodeKind}
  {node other : Node} {before before' : Node × Progress}

theorem applyHook_equal {rule : Rule} {hook : Hook} (respects : hook.RespectsEquality)
    (equal : EqualOutcomes before before') :
    EqualOutcomes (applyHook rule hook above before.1 before.2)
      (applyHook rule hook above before'.1 before'.2) := by
  have alike := respects before.1 before'.1 above equal.1
  have typeNames := alike.node.typeName
  simp only [applyHook, equal.2, alike.events, typeNames]
  generalize hook before.1 above = result at alike ⊢
  generalize hook before'.1 above = result' at alike ⊢
  obtain ⟨_, replacement, _⟩ := result
  obtain ⟨_, replacement', _⟩ := result'
  cases alike.replacement with
  | none => exact ⟨alike.node, rfl⟩
  | some replaced => exact ⟨replaced, by simp only [replaced.typeName]⟩

theorem applyHooks_equal
    (respects : ∀ visitor ∈ visitors, ∀ hook ∈ select visitor.hooks, hook.RespectsEquality)
    (above : Option NodeKind) (before before' : Node × Progress)
    (equal : EqualOutcomes before before') :
    EqualOutcomes (applyHooks select visitors above before.1 before.2)
      (applyHooks select visitors above before'.1 before'.2) := by
  induction visitors generalizing before before' with
  | nil => exact equal
  | cons visitor visitors ih =>
      obtain ⟨first, behind⟩ := List.forall_mem_cons.mp respects
      rw [applyHooks_cons, applyHooks_cons]
      cases selected : select visitor.hooks with
      | none => exact ih behind _ _ equal
      | some hook => exact ih behind _ _ (applyHook_equal (first hook selected) equal)

theorem length_throughList (step : α → σ → α × σ) (elements : List α) (state : σ) :
    (throughList step elements state).1.length = elements.length := by
  induction elements generalizing state with
  | nil => rfl
  | cons element elements ih => simp only [throughList, List.length_cons, ih]

theorem throughList_equal {step : Node → Progress → Node × Progress}
    (each : ∀ node other progress, node.Equals other →
      EqualOutcomes (step node progress) (step other progress))
    {nodes others : List Node} (equal : List.Forall₂ Node.Equals nodes others)
    (progress : Progress) :
    List.Forall₂ Node.Equals (throughList step nodes progress).1
        (throughList step others progress).1 ∧
      (throughList step nodes progress).2 = (throughList step others progress).2 := by
  induction equal generalizing progress with
  | nil => exact ⟨.nil, rfl⟩
  | @cons node other nodes others here _ ih =>
      obtain ⟨trees, same⟩ := each node other progress here
      obtain ⟨behind, last⟩ := ih (step node progress).2
      simp only [throughList, ← same]
      exact ⟨.cons trees behind, last⟩

theorem visit_equal
    (entering : ∀ visitor ∈ visitors, ∀ hook ∈ visitor.hooks.entering?, hook.RespectsEquality)
    (leaving : ∀ visitor ∈ visitors, ∀ hook ∈ visitor.hooks.leaving?, hook.RespectsEquality)
    (maxDepth depthLeft : Nat) (above : Option NodeKind) (progress : Progress)
    (equal : node.Equals other) :
    EqualOutcomes (visit visitors maxDepth depthLeft above node progress)
      (visit visitors maxDepth depthLeft above other progress) := by
  induction depthLeft generalizing above node other progress with
  | zero => exact ⟨equal, rfl⟩
  | succ depthLeft ih =>
      have entered : EqualOutcomes
          (applyHooks Hooks.entering? visitors above node progress.countVisit)
          (applyHooks Hooks.entering? visitors above other progress.countVisit) :=
        applyHooks_equal entering above (node, _) (other, _) ⟨equal, rfl⟩
      rw [visit, visit]
      generalize applyHooks Hooks.entering? visitors above node progress.countVisit = here
        at entered ⊢
      generalize applyHooks Hooks.entering? visitors above other progress.countVisit = there
        at entered ⊢
      obtain ⟨inner, progress⟩ := here
      obtain ⟨inner', progress'⟩ := there
      -- The entering hooks leave equal nodes, so their children are equal one by one.
      have inners : inner.Equals inner' := entered.1
      obtain rfl : progress = progress' := entered.2
      obtain ⟨children, same⟩ := throughList_equal
        (fun child child' progress => ih (some inner.kind) progress) inners.children progress
      simp only [← inners.kind, ← same]
      exact applyHooks_equal leaving above (_, _) (_, _)
        ⟨inners.withChildren (length_throughList _ _ _) children, rfl⟩

theorem HookResult.Alike.keep (equal : node.Equals other) :
    (HookResult.keep node).Alike (HookResult.keep other) :=
  ⟨equal, .none, rfl⟩

theorem rewritable_of_equals {rule : Rule} {parent : NodeKind} (equal : node.Equals other)
    (rewritable : Rewritable rule parent other) : Rewritable rule parent node := by
  cases rule with
  | memberAccess =>
      obtain ⟨object', key, optional, rfl⟩ := rewritable_access_iff.mp rewritable
      have kinds := equal.kind
      cases node with
      | member object property =>
          cases equal.agree
          obtain ⟨_, behind⟩ := List.forall₂_cons.mp equal.children
          obtain ⟨name, rfl⟩ := Node.exists_identifier (List.forall₂_cons.mp behind).1.kind
          exact ⟨_, .access⟩
      | _ => cases kinds
  | templateLiteral =>
      rw [rewritable_template_iff_kind] at rewritable ⊢
      rwa [equal.kind]

theorem keptBy_of_equals {rule : Rule} (equal : node.Equals other) (kept : KeptBy rule above node) :
    KeptBy rule above other :=
  fun parent inParent rewritable => kept parent inParent (rewritable_of_equals equal rewritable)

theorem respectsEquality_enter : Hook.RespectsEquality MemberAccess.enter := by
  intro node other above equal
  by_cases kept : KeptBy .memberAccess above node
  · rw [enter_of_keptBy kept, enter_of_keptBy (keptBy_of_equals equal kept)]
    exact .keep equal
  · obtain ⟨parent, result, rfl, rewrites⟩ := exists_rewrites_of_not_keptBy kept
    cases rewrites with
    | access =>
        obtain ⟨object, property, rfl, objects, properties⟩ := equal.exists_member
        obtain rfl := properties.eq_identifier
        exact ⟨Node.equals_member objects (Node.equals_of_isStringLiteral rfl), .none, rfl⟩

theorem Template.congruence_equals : Congruence Node.Equals where
  literal := Node.equals_of_isStringLiteral
  addition := Node.equals_binary
  agree := Node.Equals.stringLiteral?

theorem respectsEquality_leave : Hook.RespectsEquality Template.leave := by
  intro node other above equal
  by_cases kept : KeptBy .templateLiteral above node
  · rw [leave_of_keptBy kept, leave_of_keptBy (keptBy_of_equals equal kept)]
    exact .keep equal
  · obtain ⟨parent, quasis, expressions, rfl, untagged, rfl⟩ := exists_template_of_not_keptBy kept
    obtain ⟨expressions', rfl, substitutions⟩ := equal.exists_templateLiteral
    have lengths := substitutions.length_eq
    have flattened : (Template.flatten quasis expressions).Equals _ :=
      Template.congruence_equals.related_flatten substitutions
    have alike : (HookResult.mk (.templateLiteral [] [])
        (some (Template.flatten quasis expressions))
        [.templateFlattened quasis.length expressions.length]).Alike
          ⟨.templateLiteral [] [], some (Template.flatten quasis expressions'),
            [.templateFlattened quasis.length expressions'.length]⟩ :=
      ⟨Node.equals_iff.mpr ⟨rfl, .nil⟩, .some flattened, by rw [lengths]⟩
    cases parent with
    | taggedTemplate => exact absurd rfl untagged
    | _ => exact alike

theorem respectsEquality_of_mem_visitors {schedule : Schedule} {stage : Stage} {visitor : Visitor}
    (member : visitor ∈ schedule.visitors stage) :
    (∀ hook ∈ visitor.hooks.entering?, hook.RespectsEquality) ∧
      ∀ hook ∈ visitor.hooks.leaving?, hook.RespectsEquality := by
  rw [Schedule.visitors, schedule.filled] at member
  obtain ⟨rule, _, contributes⟩ := List.mem_filterMap.mp member
  obtain ⟨hooks, isHooks, rfl⟩ := Option.map_eq_some_iff.mp contributes
  cases rule <;> cases stage <;> cases isHooks <;>
    simp [Hooks.entering?, Hooks.leaving?, respectsEquality_enter, respectsEquality_leave]

namespace Pipeline

variable (pipeline : Pipeline)

theorem runStage_equal (stage : Stage) (equal : node.Equals other) :
    (pipeline.runStage stage node).1.Equals (pipeline.runStage stage other).1 ∧
      (pipeline.runStage stage node).2 = (pipeline.runStage stage other).2 := by
  have respects : ∀ visitor ∈ pipeline.schedule.visitors stage, _ :=
    fun visitor member => respectsEquality_of_mem_visitors member
  have walks := visit_equal (fun visitor member => (respects visitor member).1)
    (fun visitor member => (respects visitor member).2) pipeline.maxDepth pipeline.maxDepth none
    .start equal
  simp only [runStage, walk]
  split
  · exact ⟨equal, rfl⟩
  · exact ⟨walks.1, by rw [walks.2]⟩

/-- Equal trees come out of a run as equal trees, with the same counts and the same events. -/
theorem runStages_equal (rules : List Rule) (maxDepth : Nat) (stages : List Stage)
    (equal : node.equal other = true) :
    let run := (ofRules rules maxDepth).runStages stages
    (run node).1.equal (run other).1 = true ∧ (run node).2 = (run other).2 := by
  induction stages generalizing node other with
  | nil => exact ⟨equal, rfl⟩
  | cons stage stages ih =>
      obtain ⟨trees, first⟩ := (ofRules rules maxDepth).runStage_equal stage equal
      obtain ⟨trees, others⟩ := ih trees
      simp only [runStages]
      exact ⟨trees, by rw [first, others]⟩

/-- A template with zeros of both signs, and raw JSON with its keys in two orders. -/
theorem runStages_equal_zeros :
    let zero (negative : Bool) :=
      Node.numberLiteral (.finite ⟨negative, 0, by decide⟩)
    let chunk (negative : Bool) (range : List (String × Json)) := Node.other "Chunk"
      [("range", .value (.object range)), ("body", .nodes [none, some (.template ["a", ""]
        [.access (zero negative) (.identifier "k") false])])]
    let lowered (negative : Bool) (range : List (String × Json)) := Node.other "Chunk"
      [("range", .value (.object range)), ("body", .nodes [none, some (.binary "+"
        (.stringLiteral "a") (.access (zero negative) (.stringLiteral "k") true))])]
    let range := [("start", Json.null), ("end", .boolean true)]
    let run := (ofRules Rule.all 5).runStages Stage.all
    (chunk false range).equal (chunk true range.reverse) = true ∧
      (run (chunk false range)).1 = lowered false range ∧
      (run (chunk true range.reverse)).1 = lowered true range.reverse ∧
      (lowered false range).equal (lowered true range.reverse) = true ∧
      (run (chunk false range)).2 = (run (chunk true range.reverse)).2 := by
  intro zero chunk lowered range run
  have equal : (chunk false range).equal (chunk true range.reverse) = true := by
    have zeros : (zero false).Equals (zero true) :=
      Node.equals_iff.mpr ⟨⟨rfl, rfl, rfl, rfl⟩, .nil⟩
    have ranges : (Json.object range).equal (.object range.reverse) = true := rfl
    have accesses : (Node.access (zero false) (.identifier "k") false).Equals
        (.access (zero true) (.identifier "k") false) :=
      Node.equals_member zeros (Node.equals_iff.mpr ⟨rfl, .nil⟩)
    have templates : (Node.template ["a", ""] [.access (zero false) (.identifier "k") false]).Equals
        (.template ["a", ""] [.access (zero true) (.identifier "k") false]) :=
      Node.equals_iff.mpr ⟨rfl, .cons accesses .nil⟩
    exact Node.equals_iff.mpr
      ⟨⟨rfl, .cons ⟨rfl, ranges⟩ (.cons ⟨rfl, rfl⟩ .nil)⟩, .cons templates .nil⟩
  have lowered₁ : (run (chunk false range)).1 = lowered false range := rfl
  have lowered₂ : (run (chunk true range.reverse)).1 = lowered true range.reverse := rfl
  obtain ⟨trees, reports⟩ := runStages_equal Rule.all 5 Stage.all equal
  exact ⟨equal, lowered₁, lowered₂, lowered₁ ▸ lowered₂ ▸ trees, reports⟩

end Pipeline

end EstreeLowering
