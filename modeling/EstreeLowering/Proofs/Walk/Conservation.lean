import EstreeLowering.Proofs.Node.Observation
import EstreeLowering.Proofs.Walk.RewritePreorder

namespace EstreeLowering

variable {quasis : List TemplateElement} {expressions : List Node} {tree : Node}

/-- Every template of the tree has a segment before each of its substitutions. -/
def Node.Segmented (tree : Node) : Prop :=
  ∀ quasis expressions, tree.Contains (.templateLiteral quasis expressions) →
    expressions.length ≤ quasis.length

theorem Node.segmented_iff :
    tree.Segmented ↔
      (∀ quasis expressions, tree = .templateLiteral quasis expressions →
        expressions.length ≤ quasis.length) ∧ ∀ child ∈ tree.children, child.Segmented := by
  constructor
  · intro segmented
    refine ⟨?_, ?_⟩
    · rintro quasis expressions rfl
      exact segmented quasis expressions contains_self
    · intro child isChild quasis expressions contains
      exact segmented quasis expressions ((contains_child isChild).trans contains)
  · rintro ⟨top, below⟩ quasis expressions contains
    rcases contains_iff.mp contains with same | ⟨child, isChild, contains⟩
    · exact top quasis expressions same.symm
    · exact below child isChild quasis expressions contains

theorem Node.segmented_template :
    (Node.templateLiteral quasis expressions).Segmented ↔
      expressions.length ≤ quasis.length ∧ ∀ expression ∈ expressions, expression.Segmented := by
  rw [segmented_iff]
  simp [children]

theorem Node.segmented_of_kind (another : tree.kind ≠ .templateLiteral) :
    tree.Segmented ↔ ∀ child ∈ tree.children, child.Segmented := by
  rw [segmented_iff, and_iff_right]
  rintro quasis expressions rfl
  exact absurd rfl another

theorem rewritePreorder_segmented :
    RewritePreorder fun before after => before.Segmented → after.Segmented := by
  apply rewritePreorder_of_everywhere Node.segmented_iff
  · rintro _ isString quasis expressions rfl
    cases isString
  · exact fun _ _ _ _ impossible => nomatch impossible
  · exact fun _ _ _ _ _ impossible => nomatch impossible
  · intro change node top quasis expressions result
    obtain ⟨expressions, rfl, rfl⟩ := Node.eq_templateLiteral_of_mapChildren result
    simpa using top quasis expressions rfl

theorem observations_rewrite {rule : Rule} {parent : NodeKind} {before after : Node}
    (segmented : before.Segmented) (rewrites : Rewrites rule parent before after) :
    after.observations = before.observations := by
  cases rewrites with
  | access => exact Node.observations_access _ _ _
  | @template _ quasis expressions _ =>
      -- What the chain drops or adds besides the substitutions are string literals and additions.
      have enough := segmented quasis expressions Node.contains_self
      rw [Template.collect_flatten Node.observations_stringLiteral Node.observations_addition
        enough,
        Node.observations_template]

theorem Rewrites.kind_ne_identifier {rule : Rule} {parent : NodeKind} {before after : Node}
    (rewrites : Rewrites rule parent before after) :
    before.kind ≠ .identifier ∧ after.kind ≠ .identifier := by
  refine ⟨by cases rewrites <;> simp [Node.kind], ?_⟩
  intro isName
  obtain ⟨name, same⟩ := Node.exists_identifier isName
  exact rewrites.not_identifier same

theorem rewritePreorder_observations :
    RewritePreorder fun before after => (before.kind = .identifier ↔ after.kind = .identifier) ∧
      (before.Segmented → after.Segmented ∧ after.observations = before.observations) where
  refl _ := ⟨Iff.rfl, fun segmented => ⟨segmented, rfl⟩⟩
  trans := by
    rintro before middle after ⟨kinds, first⟩ ⟨kinds', second⟩
    refine ⟨kinds.trans kinds', fun segmented => ?_⟩
    obtain ⟨segmented, same⟩ := first segmented
    obtain ⟨segmented, same'⟩ := second segmented
    exact ⟨segmented, same'.trans same⟩
  rewrite := by
    intro rule parent before after rewrites
    obtain ⟨before, after⟩ := rewrites.kind_ne_identifier
    refine ⟨by simp [before, after], fun segmented => ?_⟩
    exact ⟨rewritePreorder_segmented.rewrite rewrites segmented,
      observations_rewrite segmented rewrites⟩
  inside := by
    intro node change each
    refine ⟨by simp, fun segmented => ?_⟩
    have below := (Node.segmented_iff.mp segmented).2
    have kept := rewritePreorder_segmented.inside fun child isChild segmented =>
      ((each child isChild).2 segmented).1
    refine ⟨kept segmented, ?_⟩
    exact Node.observations_mapChildren (fun child isChild => (each child isChild).1)
      fun child isChild => ((each child isChild).2 (below child isChild)).2

/-- Whatever a run does to a tree in which every substitution has a segment before it, what may
have an effect is the same afterwards and comes in the same order. -/
theorem runStages_observations (segmented : tree.Segmented) (rules : List Rule) (maxDepth : Nat)
    (stages : List Stage) :
    ((Pipeline.ofRules rules maxDepth).runStages stages tree).1.observations =
      tree.observations :=
  ((rewritePreorder_observations.runStages rules maxDepth stages tree).2 segmented).2

/-- The call, the accesses and what they are made on, around two substitutions. -/
theorem runStages_observations_call :
    let root := Node.expressionStatement (.callOf (.identifier "f")
      [.template ["a", "", ""]
        [.access (.identifier "o") (.identifier "k") false, .callOf (.identifier "g") []]])
    let result := Node.expressionStatement (.callOf (.identifier "f")
      [.binary "+" (.binary "+" (.stringLiteral "a")
        (.access (.identifier "o") (.stringLiteral "k") true)) (.callOf (.identifier "g") [])])
    root.Segmented ∧
      ((Pipeline.ofRules Rule.all 5).runStages Stage.all root).1 = result ∧
      result.observations = root.observations ∧
      root.observations =
        [.identifier "f", .identifier "o", .access default default false, .identifier "g",
          .callOf default [], .callOf default [default], .expressionStatement default] := by
  intro root result
  have segmented : root.Segmented := by
    simp (disch := decide) [root, Node.callOf, Node.access, Node.template, Node.segmented_of_kind,
      Node.segmented_template, Node.children, TemplateElement.ofTexts]
  have lowered : ((Pipeline.ofRules Rule.all 5).runStages Stage.all root).1 = result := rfl
  have same := runStages_observations segmented Rule.all 5 Stage.all
  refine ⟨segmented, lowered, lowered ▸ same, ?_⟩
  simp [root, Node.callOf, Node.access, Node.template, Node.observations_eq,
    Node.observedChildren, Node.children, Node.ownObservation, Node.isInert, Node.isStringLiteral,
    Node.stringLiteral?, Node.label, Node.mapChildren, Node.withChildren]

end EstreeLowering
