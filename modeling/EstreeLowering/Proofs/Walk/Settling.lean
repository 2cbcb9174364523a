import EstreeLowering.Proofs.Rule.Template
import EstreeLowering.Proofs.Walk.Lowering

/-!
A walk of the converting stage leaves nothing that it could still rewrite.

Flattening moves substitutions after they were walked. It moves none of them up: whatever is not a
string literal stands below an addition afterwards, at least as deep as below the template. And it
moves none of them under a parent that asks more of it: an addition, like a template, is no tag. So
a substitution that is settled below the template is settled where it goes.
-/

namespace EstreeLowering

variable {rules : List Rule} {limit depthLeft : Nat} {above : Option NodeKind}
  {parent : NodeKind} {tree node : Node}

theorem Rewritable.of_untagged {rule : Rule} {elsewhere : NodeKind}
    (rewritable : Rewritable rule elsewhere node) (untagged : parent ≠ .taggedTemplate) :
    Rewritable rule parent node := by
  cases rule with
  | memberAccess => exact rewritable_access_iff.mpr (rewritable_access_iff.mp rewritable)
  | templateLiteral =>
      obtain ⟨_, parts⟩ := rewritable_template_iff.mp rewritable
      exact rewritable_template_iff.mpr ⟨untagged, parts⟩

/-- A parent that is no tag is the one that asks most. -/
theorem Settled.reparent (settled : Settled rules limit (some parent) tree)
    (untagged : parent ≠ .taggedTemplate) : Settled rules limit above tree := by
  cases limit with
  | zero => exact settled_zero
  | succ limit =>
      obtain ⟨kept, below⟩ := settled_succ_iff.mp settled
      refine settled_succ_iff.mpr ⟨?_, below⟩
      intro rule member elsewhere _ rewritable
      exact kept rule member parent rfl (rewritable.of_untagged untagged)

theorem not_rewritable_of_isStringLiteral {rule : Rule} (isString : node.isStringLiteral = true) :
    ¬ Rewritable rule parent node := by
  rintro ⟨result, rewrites⟩
  cases rewrites <;> cases isString

theorem settled_leaf (leaf : tree.children = [])
    (kept : ∀ rule parent, ¬ Rewritable rule parent tree) : Settled rules limit above tree := by
  intro depth parent node occurs _ rule _
  rw [occurs.contains.eq_of_leaf leaf]
  exact kept rule parent

theorem settled_stringLiteral (isString : node.isStringLiteral = true) :
    Settled rules limit above node :=
  settled_leaf (Node.children_of_isStringLiteral isString)
    fun _ _ => not_rewritable_of_isStringLiteral isString

theorem settled_identifier {name : String} : Settled rules limit above (.identifier name) := by
  apply settled_leaf rfl
  rintro rule parent ⟨result, rewrites⟩
  cases rewrites

theorem settled_flatten {quasis : List TemplateElement} {expressions : List Node}
    (settled : ∀ expression ∈ expressions, Settled rules limit (some .templateLiteral) expression) :
    Settled rules (limit + 1) above (Template.flatten quasis expressions) := by
  intro depth parent node occurs shallow rule member
  rcases Template.cases_of_occurs_flatten occurs with
    isString | ⟨left, right, rfl⟩ | ⟨expression, substituted, deep, lower, within⟩
  · exact not_rewritable_of_isStringLiteral isString
  · rintro ⟨result, rewrites⟩
    cases rewrites
  · have inChain : Settled rules limit (some .binary) expression :=
      (settled expression substituted).reparent (by decide)
    exact inChain deep parent node within (by omega) rule member

theorem Rewrites.not_identifier {rule : Rule} {key : String} {result : Node}
    (rewrites : Rewrites rule parent node result) : result ≠ .identifier key := by
  cases rewrites with
  | access => exact fun impossible => nomatch impossible
  | @template _ quasis expressions _ =>
      intro impossible
      rcases Template.flatten_cases quasis expressions with isString | ⟨left, right, addition⟩
      · rw [impossible] at isString
        cases isString
      · rw [impossible] at addition
        cases addition

theorem eq_identifier_of_lowered {key : String}
    (result : lowered rules depthLeft above node = .identifier key) : node = .identifier key := by
  cases depthLeft with
  | zero => exact result
  | succ depthLeft =>
      rw [lowered_succ] at result
      rcases exited_cases rules above (walked rules depthLeft above node) with
        ⟨same, _, _⟩ | ⟨parent, _, _, rewrites, _⟩
      · rw [same] at result
        have inner := Node.eq_identifier_of_mapChildren result
        rcases entered_cases rules above node with ⟨same, _⟩ | ⟨parent, _, _, rewrites⟩
        · rw [← same, inner]
        · exact absurd inner rewrites.not_identifier
      · exact absurd result rewrites.not_identifier

theorem lowered_identifier {name : String} :
    lowered rules depthLeft above (.identifier name) = .identifier name :=
  (lowered_of_settled settled_identifier).1

theorem lowered_stringLiteral (isString : node.isStringLiteral = true) :
    lowered rules depthLeft above node = node :=
  (lowered_of_settled (settled_stringLiteral isString)).1

/-- What changes the children of a node and leaves identifiers and string literals alone may come
before or after the entering hooks. -/
theorem entered_mapChildren {change : Node → Node}
    (identifier : ∀ name, change (.identifier name) = .identifier name)
    (literal : ∀ child : Node, child.isStringLiteral = true → change child = child)
    (reflects : ∀ child name, change child = .identifier name → child = .identifier name)
    (rules : List Rule) (above : Option NodeKind) (node : Node) :
    entered rules above (node.mapChildren change) =
      (entered rules above node).mapChildren change := by
  by_cases kept : KeptBy .memberAccess above node
  · rw [entered_of_keptBy kept, entered_of_keptBy (keptBy_mapChildren reflects kept)]
  · obtain ⟨parent, result, rfl, rewrites⟩ := exists_rewrites_of_not_keptBy kept
    cases rewrites with
    | @access _ object key optional =>
        have property : change (.stringLiteral key) = .stringLiteral key := literal _ rfl
        by_cases member : .memberAccess ∈ rules
        · simp [entered, member, Node.mapChildren, Node.withChildren, Node.children, identifier,
            MemberAccess.enter, MemberAccess.convert?, HookResult.outcome, property]
        · simp [entered, member]

theorem keptBy_entered (member : .memberAccess ∈ rules) :
    KeptBy .memberAccess above (entered rules above node) := by
  rcases entered_cases rules above node with ⟨same, kept⟩ | ⟨parent, rfl, _, rewrites⟩
  · rw [same]
    exact kept member
  · intro elsewhere _ rewritable
    obtain ⟨result, again⟩ := rewritable
    generalize entered rules (some parent) node = inner at rewrites again
    cases rewrites with
    | access => cases again

/-- Between the entering and the leaving hooks of a node its children are settled. -/
theorem settled_children_walked
    (settled : ∀ above node, Settled rules depthLeft above (lowered rules depthLeft above node))
    (above : Option NodeKind) (node : Node) :
    ∀ child ∈ (walked rules depthLeft above node).children,
      Settled rules depthLeft (some (walked rules depthLeft above node).kind) child := by
  intro child isChild
  rw [walked, Node.children_mapChildren] at isChild
  rw [walked, Node.kind_mapChildren]
  obtain ⟨child, _, rfl⟩ := List.mem_map.mp isChild
  exact settled _ child

/-- After a walk nothing that the walk could have reached can be rewritten, wherever it stands
now. -/
theorem settled_lowered (rules : List Rule) (depthLeft : Nat) (above : Option NodeKind)
    (node : Node) : Settled rules depthLeft above (lowered rules depthLeft above node) := by
  induction depthLeft generalizing above node with
  | zero => exact settled_zero
  | succ depthLeft ih =>
      have below := settled_children_walked ih above node
      rw [lowered_succ]
      rcases exited_cases rules above (walked rules depthLeft above node) with
        ⟨same, _, kept⟩ | ⟨parent, _, _, rewrites, _⟩
      · rw [same]
        refine settled_succ_iff.mpr ⟨?_, below⟩
        intro rule member
        cases rule with
        | memberAccess =>
            exact keptBy_mapChildren (fun _ _ => eq_identifier_of_lowered) (keptBy_entered member)
        | templateLiteral => exact kept member
      · generalize walked rules depthLeft above node = last at rewrites below ⊢
        generalize exited rules above last = result at rewrites
        cases rewrites with
        | template untagged => exact settled_flatten below

/-- Nothing at a depth below the limit, measured in the tree that the stage leaves, is an access
that its rule would convert or a template that its rule would flatten. -/
theorem runStage_converting_settled {maxDepth depth : Nat} {root : Node}
    (occurs : ((Pipeline.ofRules rules maxDepth).runStage .converting root).1.Occurs none depth
      (some parent) node)
    (shallow : depth < maxDepth) :
    (.memberAccess ∈ rules → ∀ object key optional,
        node ≠ .member object (.identifier key) false optional) ∧
      (.templateLiteral ∈ rules → parent ≠ .taggedTemplate → ∀ quasis expressions,
        node ≠ .templateLiteral quasis expressions) := by
  rw [(Pipeline.runStage_converting rules maxDepth root).1] at occurs
  have kept := settled_lowered rules.eraseDups maxDepth none root depth parent node occurs shallow
  constructor
  · intro member object key optional same
    subst same
    exact kept .memberAccess (List.mem_eraseDups.mpr member) ⟨_, .access⟩
  · intro member untagged quasis expressions same
    subst same
    exact kept .templateLiteral (List.mem_eraseDups.mpr member) ⟨_, .template untagged⟩

/-- A substitution behind a hole in a list of nodes: its access is converted, its template gone. -/
theorem runStage_converting_settled_item :
    ((Pipeline.ofRules [.templateLiteral, .memberAccess] 3).runStage .converting
        (.other "Chunk" [("body", .nodes [none, some (.template ["", ""]
          [.access (.identifier "o") (.identifier "k") false])])])).1.Occurs none 2 (some .binary)
        (.access (.identifier "o") (.stringLiteral "k") true) ∧
      (∀ object key optional, Node.access (.identifier "o") (.stringLiteral "k") true ≠
        .member object (.identifier key) false optional) ∧
      ∀ quasis expressions, Node.access (.identifier "o") (.stringLiteral "k") true ≠
        .templateLiteral quasis expressions := by
  have occurs : Node.Occurs ((Pipeline.ofRules [.templateLiteral, .memberAccess] 3).runStage
      .converting (.other "Chunk" [("body", .nodes [none, some (.template ["", ""]
        [.access (.identifier "o") (.identifier "k") false])])])).1 none 2 (some .binary)
      (.access (.identifier "o") (.stringLiteral "k") true) :=
    .inside (.fieldItem List.mem_cons_self (List.mem_cons_of_mem none List.mem_cons_self))
      (.inside .rightOperand .here)
  have settled := runStage_converting_settled occurs (by decide)
  exact ⟨occurs, settled.1 (by decide), settled.2 (by decide) (by decide)⟩

end EstreeLowering
