import EstreeLowering.Proofs.Walk.Repetition

namespace EstreeLowering

/-- A relation between trees and what becomes of them where they stand, in a node of kind `above`
or in none. It contains every rewriting of a single node, at any place. -/
structure PlacedPreorder (R : Option NodeKind → Node → Node → Prop) : Prop where
  refl : ∀ above tree, R above tree tree
  trans : ∀ {above before middle after}, R above before middle → R above middle after →
    R above before after
  rewrite : ∀ {rule parent before after}, Rewrites rule parent before after →
    R (some parent) before after
  inside : ∀ {above node} {change : Node → Node},
    (∀ child ∈ node.children, R (some node.kind) child (change child)) →
      R above node (node.mapChildren change)

namespace PlacedPreorder

variable {R : Option NodeKind → Node → Node → Prop} (preorder : PlacedPreorder R)

include preorder

theorem lowered (rules : List Rule) (depthLeft : Nat) (above : Option NodeKind) (node : Node) :
    R above node (lowered rules depthLeft above node) := by
  induction depthLeft generalizing above node with
  | zero => exact preorder.refl above node
  | succ depthLeft ih =>
      have first : R above node (entered rules above node) := by
        rcases entered_cases rules above node with ⟨same, _⟩ | ⟨parent, rfl, _, rewrites⟩
        · rw [same]
          exact preorder.refl above node
        · exact preorder.rewrite rewrites
      have inner : R above (entered rules above node) (walked rules depthLeft above node) :=
        preorder.inside fun child _ => ih _ child
      have last : R above (walked rules depthLeft above node)
          (exited rules above (walked rules depthLeft above node)) := by
        rcases exited_cases rules above (walked rules depthLeft above node) with
          ⟨same, _, _⟩ | ⟨parent, rfl, _, rewrites, _⟩
        · rw [same]
          exact preorder.refl above _
        · exact preorder.rewrite rewrites
      exact preorder.trans first (preorder.trans inner last)

theorem runStage (rules : List Rule) (maxDepth : Nat) (stage : Stage) (root : Node) :
    R none root ((Pipeline.ofRules rules maxDepth).runStage stage root).1 := by
  rcases Pipeline.runStage_cases rules maxDepth stage with idle | walks
  · rw [(idle root).1]
    exact preorder.refl none root
  · rw [(walks root).1]
    exact preorder.lowered rules.eraseDups maxDepth none root

theorem runStages (rules : List Rule) (maxDepth : Nat) (stages : List Stage) (root : Node) :
    R none root ((Pipeline.ofRules rules maxDepth).runStages stages root).1 := by
  induction stages generalizing root with
  | nil => exact preorder.refl none root
  | cons stage stages ih =>
      exact preorder.trans (preorder.runStage rules maxDepth stage root) (ih _)

end PlacedPreorder

/-- The same for a relation to which it does not matter where the trees stand. -/
structure RewritePreorder (R : Node → Node → Prop) : Prop where
  refl : ∀ tree, R tree tree
  trans : ∀ {before middle after}, R before middle → R middle after → R before after
  rewrite : ∀ {rule parent before after}, Rewrites rule parent before after → R before after
  inside : ∀ {node} {change : Node → Node}, (∀ child ∈ node.children, R child (change child)) →
    R node (node.mapChildren change)

namespace RewritePreorder

variable {R : Node → Node → Prop} (preorder : RewritePreorder R)

include preorder

theorem placed : PlacedPreorder fun _ => R where
  refl _ := preorder.refl
  trans := preorder.trans
  rewrite := preorder.rewrite
  inside := preorder.inside

theorem runStages (rules : List Rule) (maxDepth : Nat) (stages : List Stage) (root : Node) :
    R root ((Pipeline.ofRules rules maxDepth).runStages stages root).1 :=
  preorder.placed.runStages rules maxDepth stages root

end RewritePreorder

/-- What a tree has when each of its nodes has some property, it keeps if the nodes that rewritings
bring in have the property, and if no node loses it through its children. -/
theorem rewritePreorder_of_everywhere {P Everywhere : Node → Prop}
    (everywhere_iff : ∀ {node},
      Everywhere node ↔ P node ∧ ∀ child ∈ node.children, Everywhere child)
    (literal : ∀ {node : Node}, node.isStringLiteral = true → P node)
    (addition : ∀ left right, P (.binary "+" left right))
    (access : ∀ object key optional, P (.member object (.stringLiteral key) true optional))
    (mapChildren : ∀ (change : Node → Node) {node}, P node → P (node.mapChildren change)) :
    RewritePreorder fun before after => Everywhere before → Everywhere after where
  refl _ holds := holds
  trans first second holds := second (first holds)
  rewrite := by
    intro rule parent before after rewrites holds
    have string : ∀ node : Node, node.isStringLiteral = true → Everywhere node := by
      intro node isString
      refine everywhere_iff.mpr ⟨literal isString, ?_⟩
      simp [Node.children_of_isStringLiteral isString]
    have below := (everywhere_iff.mp holds).2
    cases rewrites with
    | access =>
        simp only [Node.children, List.forall_mem_cons] at below
        refine everywhere_iff.mpr ⟨access _ _ _, ?_⟩
        simp only [Node.children, List.forall_mem_cons]
        exact ⟨below.1, string _ rfl, below.2.2⟩
    | @template _ quasis expressions _ =>
        refine Template.flatten_induction quasis string ?_ below
        intro left right holdsLeft holdsRight
        refine everywhere_iff.mpr ⟨addition left right, ?_⟩
        simp [Node.children, holdsLeft, holdsRight]
  inside := by
    intro node change each holds
    obtain ⟨top, below⟩ := everywhere_iff.mp holds
    refine everywhere_iff.mpr ⟨mapChildren change top, ?_⟩
    rw [Node.children_mapChildren]
    exact List.forall_mem_map.mpr fun child isChild => each child isChild (below child isChild)

end EstreeLowering
