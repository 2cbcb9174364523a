import EstreeLowering.Proofs.Walk.Settling

/-!
A walk of the converting stage as a sequence of rewritings of single nodes.

A step rewrites the node at one position of the tree that the steps before it left. What a step
does to a child is also a step of the whole tree, one level deeper: neither the depth that is left
nor the kind of the parent depends on where the tree itself stands. So a walk derives what it
leaves, as its parts do.
-/

namespace EstreeLowering

/-- A rule rewrites one node at a depth below `limit`; a template only once everything beneath it
down to the limit is settled. A whole tree has nothing above it, so its root is not rewritten. -/
inductive Step (limit : Nat) (above : Option NodeKind) : Rule → Node → Node → Prop
  | rewrite {rule tree path parent node result}
      (found : tree.slot? above path = some (parent, node))
      (shallow : path.length < limit)
      (rewrites : Rewrites rule parent node result)
      (innermost : rule = .templateLiteral →
        Settled [.templateLiteral] (limit - path.length) none node) :
      Step limit above rule tree (tree.putAt path result)

/-- One step after the other, with the rules of the steps in their order. -/
inductive Derivation (limit : Nat) (above : Option NodeKind) : List Rule → Node → Node → Prop
  | done {tree} : Derivation limit above [] tree tree
  | step {rule steps before middle after} (first : Step limit above rule before middle)
      (rest : Derivation limit above steps middle after) :
      Derivation limit above (rule :: steps) before after

variable {rules steps others : List Rule} {rule : Rule} {limit index : Nat}
  {above : Option NodeKind} {tree child before middle after : Node}

theorem Step.inChild (found : tree.children[index]? = some child)
    (step : Step limit (some tree.kind) rule child after) :
    Step (limit + 1) above rule tree (tree.withChildren (tree.children.set index after)) := by
  cases step with
  | @rewrite path parent node result slot shallow rewrites innermost =>
      have deeper : Step (limit + 1) above rule tree (tree.putAt (index :: path) result) := by
        have deeperSlot : tree.slot? above (index :: path) = some (parent, node) := by
          rw [Node.slot?_cons found, slot]
        refine .rewrite deeperSlot (Nat.succ_lt_succ shallow) rewrites ?_
        rw [List.length_cons, Nat.add_sub_add_right]
        exact innermost
      rwa [Node.putAt_cons found] at deeper

namespace Derivation

theorem trans (first : Derivation limit above steps before middle)
    (second : Derivation limit above others middle after) :
    Derivation limit above (steps ++ others) before after := by
  induction first with
  | done => exact second
  | step step _ ih => exact .step step (ih second)

theorem inChild (found : tree.children[index]? = some child)
    (derivation : Derivation limit (some tree.kind) steps child after) :
    Derivation (limit + 1) above steps tree
      (tree.withChildren (tree.children.set index after)) := by
  generalize inParent : tree.kind = parent at derivation
  induction derivation generalizing tree with
  | done =>
      rw [Node.withChildren_set_self found]
      exact .done
  | @step rule steps before middle after first rest ih =>
      subst inParent
      have bound : index < tree.children.length := (List.getElem?_eq_some_iff.mp found).1
      refine .step (first.inChild found) ?_
      have behind := @ih (tree.withChildren (tree.children.set index middle))
        (by rw [Node.children_withChildren_set, List.getElem?_set_self bound])
        (Node.kind_withChildren _ _)
      rwa [Node.children_withChildren_set, Node.withChildren_set_set] at behind

end Derivation

/-- Some derivation by the rules, with so many templates rewritten. -/
def Derives (rules : List Rule) (limit : Nat) (above : Option NodeKind) (count : Nat)
    (before after : Node) : Prop :=
  ∃ steps, Derivation limit above steps before after ∧ (∀ rule ∈ steps, rule ∈ rules) ∧
    steps.count .templateLiteral = count

namespace Derives

variable {rules : List Rule} {count more : Nat}

theorem refl (tree : Node) : Derives rules limit above 0 tree tree :=
  ⟨[], .done, (fun _ member => nomatch member), rfl⟩

theorem single (step : Step limit above rule before after) (member : rule ∈ rules) :
    Derives rules limit above ([rule].count .templateLiteral) before after :=
  ⟨[rule], .step step .done, fun _ only => List.mem_singleton.mp only ▸ member, rfl⟩

theorem trans (first : Derives rules limit above count before middle)
    (second : Derives rules limit above more middle after) :
    Derives rules limit above (count + more) before after := by
  obtain ⟨steps, derivation, subset, counted⟩ := first
  obtain ⟨others, further, subset', counted'⟩ := second
  refine ⟨steps ++ others, derivation.trans further, ?_, ?_⟩
  · intro rule member
    exact (List.mem_append.mp member).elim (subset rule) (subset' rule)
  · rw [List.count_append, counted, counted']

theorem inChild (found : tree.children[index]? = some child)
    (derives : Derives rules limit (some tree.kind) count child after) :
    Derives rules (limit + 1) above count tree
      (tree.withChildren (tree.children.set index after)) := by
  obtain ⟨steps, derivation, subset, counted⟩ := derives
  exact ⟨steps, derivation.inChild found, subset, counted⟩

/-- The children one after the other: those `behind` are done, those `ahead` are not. -/
theorem inChildrenFrom {counts : Node → Nat} {change : Node → Node} {behind ahead : List Node}
    (split : tree.children = behind ++ ahead)
    (changes : ∀ child ∈ ahead,
      Derives rules limit (some tree.kind) (counts child) child (change child)) :
    Derives rules (limit + 1) above (ahead.map counts).sum tree
      (tree.withChildren (behind ++ ahead.map change)) := by
  induction ahead generalizing tree behind with
  | nil =>
      simp only [List.map_nil, ← split, Node.withChildren_children]
      exact refl tree
  | cons child ahead ih =>
      have found : tree.children[behind.length]? = some child := by
        rw [split, List.getElem?_append_right (Nat.le_refl _), Nat.sub_self,
          List.getElem?_cons_zero]
      have here : Derives rules (limit + 1) above (counts child) tree
          (tree.withChildren (tree.children.set behind.length (change child))) :=
        (changes child List.mem_cons_self).inChild found
      have placed : tree.children.set behind.length (change child) =
          (behind ++ [change child]) ++ ahead := by
        rw [split, List.set_append_right _ _ (Nat.le_refl _), Nat.sub_self, List.set_cons_zero,
          List.append_assoc, List.singleton_append]
      have next : (tree.withChildren (tree.children.set behind.length (change child))).children =
          (behind ++ [change child]) ++ ahead := by
        rw [Node.children_withChildren_set, placed]
      have rest := ih next fun child member => by
        rw [Node.kind_withChildren]
        exact changes child (List.mem_cons_of_mem _ member)
      have together := here.trans rest
      rwa [Node.withChildren_withChildren List.length_set (by simp [split]), List.append_assoc,
        List.singleton_append] at together

theorem inChildren {counts : Node → Nat} {change : Node → Node}
    (changes : ∀ child ∈ tree.children,
      Derives rules limit (some tree.kind) (counts child) child (change child)) :
    Derives rules (limit + 1) above (tree.children.map counts).sum tree
      (tree.mapChildren change) :=
  inChildrenFrom (List.nil_append tree.children).symm changes

end Derives

section

variable (rules : List Rule) (depthLeft : Nat) (above : Option NodeKind) (node : Node)

theorem derives_entered :
    Derives rules (depthLeft + 1) above 0 node (entered rules above node) := by
  rcases entered_cases rules above node with ⟨same, _⟩ | ⟨parent, rfl, member, rewrites⟩
  · rw [same]
    exact .refl node
  · have found : node.slot? (some parent) [] = some (parent, node) := rfl
    refine Derives.single (.rewrite found (Nat.succ_pos depthLeft) rewrites ?_) member
    exact fun impossible => nomatch impossible

/-- The template is rewritten last of all that stands in it: the walk of its children has settled
them. -/
theorem derives_exited
    (settled : .templateLiteral ∈ rules → ∀ child ∈ node.children,
      Settled [.templateLiteral] depthLeft (some node.kind) child) :
    Derives rules (depthLeft + 1) above (replacements rules above node) node
      (exited rules above node) := by
  rcases exited_cases rules above node with
    ⟨same, uncounted, _⟩ | ⟨parent, rfl, member, rewrites, counted⟩
  · rw [same, uncounted]
    exact .refl node
  · rw [counted]
    have found : node.slot? (some parent) [] = some (parent, node) := rfl
    refine Derives.single (.rewrite found (Nat.succ_pos depthLeft) rewrites ?_) member
    exact fun _ => settled_succ_iff.mpr ⟨(fun _ _ _ impossible => nomatch impossible),
      settled member⟩

end

theorem derives_lowered (rules : List Rule) (depthLeft : Nat) (above : Option NodeKind)
    (node : Node) :
    Derives rules depthLeft above (tallied rules depthLeft above node).replaced node
      (lowered rules depthLeft above node) := by
  induction depthLeft generalizing above node with
  | zero => exact .refl node
  | succ depthLeft ih =>
      have first := derives_entered rules depthLeft above node
      have inner : Derives rules (depthLeft + 1) above _ (entered rules above node)
          (walked rules depthLeft above node) :=
        Derives.inChildren fun child _ => ih (some (entered rules above node).kind) child
      have settled := settled_children_walked (settled_lowered rules depthLeft) above node
      have last := derives_exited rules depthLeft above (walked rules depthLeft above node)
        fun member child isChild => (settled child isChild).mono
          (fun rule only => List.mem_singleton.mp only ▸ member) (Nat.le_refl _)
      have counted : (tallied rules (depthLeft + 1) above node).replaced =
          0 + (((entered rules above node).children.map fun child =>
            (tallied rules depthLeft (some (entered rules above node).kind) child).replaced).sum +
              replacements rules above (walked rules depthLeft above node)) := by
        simp only [tallied, Tally.add, Tally.replaced_sum, List.map_map, Function.comp_def]
      rw [counted]
      exact first.trans (inner.trans last)

/-- What the stage leaves is derived from the tree by rewritings of single nodes with the rules
that take part, and as many of them rewrite a template as replacements are counted. -/
theorem runStage_converting_derivation (rules : List Rule) (maxDepth : Nat) (root : Node) :
    ∃ steps,
      Derivation maxDepth none steps root
        ((Pipeline.ofRules rules maxDepth).runStage .converting root).1 ∧
      (∀ rule ∈ steps, rule ∈ rules) ∧
      steps.count .templateLiteral =
        ((Pipeline.ofRules rules maxDepth).runStage .converting root).2.tally.replaced := by
  obtain ⟨tree, replaced⟩ := Pipeline.runStage_converting rules maxDepth root
  obtain ⟨steps, derivation, subset, counted⟩ :=
    derives_lowered rules.eraseDups maxDepth none root
  refine ⟨steps, ?_, ?_, ?_⟩
  · rw [tree]
    exact derivation
  · exact fun rule member => List.mem_eraseDups.mp (subset rule member)
  · rw [replaced, counted]

end EstreeLowering
