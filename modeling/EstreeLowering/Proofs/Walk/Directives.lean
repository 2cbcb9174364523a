import EstreeLowering.Proofs.Walk.Conservation
import EstreeLowering.Proofs.Walk.Counting

namespace EstreeLowering

open Node (Site)

/-- A statement that is a string literal. At the head of a program or of a function it is a
directive. -/
def Node.isDirective : Node → Bool
  | .expressionStatement expression => expression.isStringLiteral
  | _ => false

def Node.directives (tree : Node) : List Node :=
  tree.postorder.filter isDirective

/-- What the parts of a template join to, if all but one of them are empty and that one has a
known text. -/
def soleText? (texts : List (Option String)) : Option String :=
  match texts.filter (· ≠ some "") with
  | [] => some ""
  | [only] => only
  | _ => none

/-- The text of the string literal that stands where the node stood, once its templates are
flattened as far as `depthLeft` levels reach. -/
def Node.constantText? : Nat → Node → Option String
  | depthLeft + 1, .templateLiteral quasis expressions =>
      soleText? ((Template.interleave quasis expressions).map (constantText? depthLeft))
  | _, node => node.stringLiteral?

/-- A template stands there as a statement of its own, and a walk down to `maxDepth` leaves a
string literal in its place. -/
def Node.Site.createsDirective (maxDepth : Nat) : Site → Bool
  | ⟨depth, _, .expressionStatement expression⟩ =>
      expression.kind = .templateLiteral ∧
        (expression.constantText? (maxDepth - (depth + 1))).isSome
  | _ => false

variable {rules : List Rule} {depthLeft depth maxDepth : Nat} {above : Option NodeKind}
  {parent : NodeKind} {root node : Node} {quasis : List TemplateElement}
  {expressions nodes : List Node}

@[simp] theorem constantText?_stringLiteral (depthLeft : Nat) (text : String) :
    (Node.stringLiteral text).constantText? depthLeft = some text := by
  cases depthLeft <;> rfl

theorem constantText?_of_kind (another : node.kind ≠ .templateLiteral) (depthLeft : Nat) :
    node.constantText? depthLeft = node.stringLiteral? := by
  cases depthLeft with
  | zero => rfl
  | succ depthLeft =>
      cases node with
      | templateLiteral => exact absurd rfl another
      | _ => rfl

theorem stringLiteral?_foldl (first second : Node) (rest : List Node) :
    ((second :: rest).foldl (.binary "+") first).stringLiteral? = none := by
  rcases Template.foldl_binary_cases (.binary "+" first second) rest with
    same | ⟨left, right, addition⟩
  · rw [List.foldl_cons, same]
    rfl
  · rw [List.foldl_cons, addition]
    rfl

theorem stringLiteral?_sum (nodes : List Node) :
    (Template.sum (Template.withLeadingString nodes)).stringLiteral? =
      match nodes.map Node.stringLiteral? with
      | [] => some ""
      | [only] => only
      | _ => none := by
  match nodes with
  | [] => rfl
  | [only] =>
      cases isString : only.isStringLiteral with
      | true => simp [Template.withLeadingString, isString, Template.sum]
      | false =>
          have noText : only.stringLiteral? = none := by
            simpa [Node.isStringLiteral] using isString
          simp only [Template.withLeadingString, isString, List.take_succ_cons, List.take_nil,
            List.any_cons, List.any_nil, Bool.or_false, Bool.false_eq_true, if_false,
            List.map_cons, List.map_nil, noText]
          exact stringLiteral?_foldl _ only []
  | first :: second :: rest =>
      rw [Template.withLeadingString]
      split
      · exact stringLiteral?_foldl first second rest
      · exact stringLiteral?_foldl _ first (second :: rest)

theorem stringLiteral?_flatten (quasis : List TemplateElement) (expressions : List Node) :
    (Template.flatten quasis expressions).stringLiteral? =
      soleText? ((Template.interleave quasis expressions).map Node.stringLiteral?) := by
  have texts (nodes : List Node) :
      (nodes.map Node.stringLiteral?).filter (· ≠ some "") =
        (nodes.filter fun node => !Template.isEmptyString node).map Node.stringLiteral? := by
    simp only [List.filter_map, Function.comp_def, Template.not_isEmptyString]
  rw [Template.flatten, stringLiteral?_sum, Template.operands, soleText?, texts]

theorem texts_interleave {change : Node → Node}
    (same : ∀ expression, (change expression).stringLiteral? = expression.constantText? depthLeft) :
    (Template.interleave quasis (expressions.map change)).map Node.stringLiteral? =
      (Template.interleave quasis expressions).map (Node.constantText? depthLeft) := by
  have segment (text : String) : (Node.stringLiteral text).stringLiteral? = some text := rfl
  induction quasis generalizing expressions with
  | nil => rfl
  | cons quasi quasis ih =>
      cases expressions with
      | nil =>
          have behind := @ih []
          simpa [Template.interleave, segment] using behind
      | cons expression expressions => simp [Template.interleave, segment, same, ih]

/-- A template in a node that is no tag becomes a string literal with its constant text. -/
theorem stringLiteral?_lowered (member : .templateLiteral ∈ rules)
    (untagged : parent ≠ .taggedTemplate) :
    (lowered rules depthLeft (some parent) node).stringLiteral? =
      node.constantText? depthLeft := by
  induction depthLeft generalizing parent node with
  | zero => rfl
  | succ depthLeft ih =>
      by_cases another : node.kind ≠ .templateLiteral
      · have kept : KeptBy .templateLiteral (some parent) node := by
          simp [KeptBy, rewritable_template_iff_kind, another]
        rw [constantText?_of_kind another, lowered_of_keptBy fun _ => kept, walked,
          Node.stringLiteral?_mapChildren, stringLiteral?_entered]
      · cases node with
        | templateLiteral quasis expressions =>
            have inParts : ∀ expression, (lowered rules depthLeft (some .templateLiteral)
                expression).stringLiteral? = expression.constantText? depthLeft :=
              fun expression => ih (by decide)
            rw [lowered_template member untagged, stringLiteral?_flatten, texts_interleave inParts]
            rfl
        | _ => exact absurd (by simp [Node.kind]) another

theorem stringLiteral?_lowered_of_not_mem (absent : .templateLiteral ∉ rules) :
    (lowered rules depthLeft above node).stringLiteral? = node.stringLiteral? := by
  cases depthLeft with
  | zero => rfl
  | succ depthLeft =>
      rw [lowered_of_keptBy fun member => absurd member absent, walked,
        Node.stringLiteral?_mapChildren, stringLiteral?_entered]

namespace Node

theorem directives_eq (tree : Node) :
    tree.directives =
      tree.children.flatMap directives ++ if tree.isDirective then [tree] else [] := by
  simp only [directives, postorder_eq tree, List.filter_append, List.filter_flatMap,
    List.filter_singleton, Bool.cond_eq_ite]
  rfl

theorem length_directives (tree : Node) :
    tree.directives.length =
      (tree.children.map fun child => child.directives.length).sum +
        if tree.isDirective then 1 else 0 := by
  rw [directives_eq, List.length_append, List.length_flatMap]
  cases tree.isDirective <;> rfl

theorem isDirective_of_kind (another : node.kind ≠ .expressionStatement) :
    node.isDirective = false := by
  cases node with
  | expressionStatement => exact absurd rfl another
  | _ => rfl

theorem directives_of_kind (another : node.kind ≠ .expressionStatement) :
    node.directives = node.children.flatMap directives := by
  rw [directives_eq, isDirective_of_kind another]
  simp

theorem directives_statement (expression : Node) :
    (Node.expressionStatement expression).directives =
      expression.directives ++
        if expression.isStringLiteral then [.expressionStatement expression] else [] := by
  rw [directives_eq, children, List.flatMap_singleton]
  rfl

theorem directives_stringLiteral (isString : node.isStringLiteral = true) :
    node.directives = [] := by
  cases node with
  | literal => exact directives_of_kind (by simp [kind])
  | _ => cases isString

theorem directives_addition (left right : Node) :
    (Node.binary "+" left right).directives = left.directives ++ right.directives := by
  rw [directives_of_kind (by simp [kind])]
  simp [children]

end Node

theorem directives_flatten (quasis : List TemplateElement) (expressions : List Node) :
    (Template.flatten quasis expressions).directives =
      (expressions.take quasis.length).flatMap Node.directives := by
  rw [← Template.flatten_take]
  exact Template.collect_flatten Node.directives_stringLiteral Node.directives_addition
    (List.length_take_le _ _)

theorem directives_entered (rules : List Rule) (above : Option NodeKind) (node : Node) :
    (entered rules above node).directives = node.directives := by
  rcases entered_eq_or rules above node with same | ⟨object, key, optional, rfl, same⟩
  · rw [same]
  · have literal : (Node.stringLiteral key).directives = [] := Node.directives_stringLiteral rfl
    have identifier : (Node.identifier key).directives = [] :=
      Node.directives_of_kind (by simp [Node.kind])
    rw [same, Node.directives_of_kind (by simp [Node.kind]),
      Node.directives_of_kind (by simp [Node.kind])]
    simp [Node.children, literal, identifier]

@[simp] theorem isDirective_entered (rules : List Rule) (above : Option NodeKind) (node : Node) :
    (entered rules above node).isDirective = node.isDirective := by
  rcases entered_eq_or rules above node with same | ⟨object, key, optional, rfl, same⟩ <;> rw [same]
  rfl

/-- The statements of a tree that are string literals already or become so in a walk down to
`limit`. The tree itself stands `depth` levels deep. -/
def directivesDue (rules : List Rule) (limit depth : Nat) (above : Option NodeKind)
    (node : Node) : Nat :=
  node.directives.length + if .templateLiteral ∈ rules then
    (node.sitesFrom above depth).countP (·.createsDirective limit) else 0

theorem createsDirective_iff {site : Site} :
    site.createsDirective maxDepth = true ↔
      ∃ expression, site.node = .expressionStatement expression ∧
        expression.kind = .templateLiteral ∧
          (expression.constantText? (maxDepth - (site.depth + 1))).isSome := by
  obtain ⟨depth, parent, node⟩ := site
  cases node <;> simp [Site.createsDirective]

theorem depth_lt_of_createsDirective {site : Site}
    (creates : site.createsDirective maxDepth = true) : site.depth < maxDepth := by
  obtain ⟨expression, _, isTemplate, constant⟩ := createsDirective_iff.mp creates
  by_contra deep
  have unreached : maxDepth - (site.depth + 1) = 0 := by omega
  rw [unreached] at constant
  cases expression with
  | templateLiteral => cases constant
  | _ => cases isTemplate

theorem directivesDue_at_limit (rules : List Rule) (depth : Nat) (above : Option NodeKind)
    (node : Node) : directivesDue rules depth depth above node = node.directives.length := by
  have none : (node.sitesFrom above depth).countP (·.createsDirective depth) = 0 :=
    countP_sites_above _ (fun _ => depth_lt_of_createsDirective) above node
  rw [directivesDue, none, ite_self, Nat.add_zero]

/-- Of a statement only what becomes of its expression matters. -/
theorem isDirective_walked (rules : List Rule) (depthLeft depth : Nat) (above : Option NodeKind)
    (node : Node) :
    (walked rules depthLeft above node).isDirective = true ↔
      node.isDirective = true ∨ .templateLiteral ∈ rules ∧
        Site.createsDirective (depth + (depthLeft + 1)) ⟨depth, above, node⟩ = true := by
  rw [createsDirective_iff]
  -- A node that is no statement does not become one between its hooks.
  by_cases another : node.kind ≠ .expressionStatement
  · have noStatement : ∀ expression, node ≠ .expressionStatement expression := by
      intro expression same
      exact another (by rw [same]; rfl)
    rw [Node.isDirective_of_kind another, Node.isDirective_of_kind (by simpa using another)]
    simp [noStatement]
  · cases node with
    | expressionStatement expression =>
        have kept : KeptBy .memberAccess above (.expressionStatement expression) := by
          simp [KeptBy, rewritable_access_iff]
        have left : depth + (depthLeft + 1) - (depth + 1) = depthLeft := by omega
        have whole : (walked rules depthLeft above (.expressionStatement expression)).isDirective =
            (lowered rules depthLeft (some .expressionStatement)
              expression).stringLiteral?.isSome := by
          rw [walked, entered_of_keptBy kept]
          rfl
        rw [whole, Node.isDirective, Node.isStringLiteral]
        by_cases member : .templateLiteral ∈ rules
        · rw [stringLiteral?_lowered member (by decide)]
          by_cases isTemplate : expression.kind = .templateLiteral
          · simp [member, isTemplate, left, Node.stringLiteral?_eq_none]
          · simp [isTemplate, constantText?_of_kind]
        · simp [stringLiteral?_lowered_of_not_mem member, member]
    | _ => exact absurd (by simp [Node.kind]) another

theorem not_createsDirective (written : node.isDirective = true) :
    ¬ Site.createsDirective maxDepth ⟨depth, above, node⟩ = true := by
  rw [createsDirective_iff]
  intro creates
  obtain ⟨expression, rfl, isTemplate, _⟩ := creates
  cases expression with
  | templateLiteral => cases written
  | _ => cases isTemplate

/-- A statement that is due is due below the node, or is the node itself. -/
theorem directivesDue_succ (rules : List Rule) (depthLeft depth : Nat) (above : Option NodeKind)
    (node : Node) :
    directivesDue rules (depth + (depthLeft + 1)) depth above node =
      ((entered rules above node).children.map
        (directivesDue rules (depth + 1 + depthLeft) (depth + 1) (some node.kind))).sum +
          if (walked rules depthLeft above node).isDirective then 1 else 0 := by
  have limit : depth + (depthLeft + 1) = depth + 1 + depthLeft := by omega
  have own : (if (walked rules depthLeft above node).isDirective then 1 else 0) =
      (if (entered rules above node).isDirective then 1 else 0) +
        if .templateLiteral ∈ rules ∧
          Site.createsDirective (depth + 1 + depthLeft) ⟨depth, above, node⟩ then 1 else 0 := by
    have whole := isDirective_walked rules depthLeft depth above node
    rw [limit] at whole
    by_cases written : node.isDirective = true
    · have once := @not_createsDirective depth (depth + 1 + depthLeft) above node written
      simp [whole, written, once]
    · simp [whole, written]
  rw [own, directivesDue, ← directives_entered rules above node, Node.length_directives, limit]
  by_cases member : .templateLiteral ∈ rules
  · have due : directivesDue rules (depth + 1 + depthLeft) (depth + 1) (some node.kind) =
        fun child => child.directives.length +
          (child.sitesFrom (some node.kind) (depth + 1)).countP
            (·.createsDirective (depth + 1 + depthLeft)) := by
      funext child
      rw [directivesDue, if_pos member]
    rw [due, List.sum_map_add, if_pos member, Node.sitesFrom_eq, List.countP_cons,
      ← countP_sites_entered rules above fun _ => rfl, List.countP_flatMap]
    simp only [member, true_and, Function.comp_def]
    omega
  · have due : directivesDue rules (depth + 1 + depthLeft) (depth + 1) (some node.kind) =
        fun child => child.directives.length := by
      funext child
      rw [directivesDue, if_neg member, Nat.add_zero]
    simp only [due, member, if_false, false_and, Nat.add_zero]

theorem segmented_children_entered (segmented : node.Segmented) (rules : List Rule)
    (above : Option NodeKind) : ∀ child ∈ (entered rules above node).children, child.Segmented := by
  intro child isChild
  rcases mem_children_entered isChild with isChild | isString
  · exact (Node.segmented_iff.mp segmented).2 child isChild
  · cases child with
    | literal =>
        exact (Node.segmented_of_kind (by simp [Node.kind])).mpr fun _ isChild => nomatch isChild
    | _ => cases isString

theorem sum_map_le_and_eq {counts bounds : Node → Nat} {Exact : Node → Prop}
    (each : ∀ node ∈ nodes, counts node ≤ bounds node ∧ (Exact node → counts node = bounds node)) :
    (nodes.map counts).sum ≤ (nodes.map bounds).sum ∧
      ((∀ node ∈ nodes, Exact node) → (nodes.map counts).sum = (nodes.map bounds).sum) := by
  refine ⟨List.sum_le_sum fun node member => (each node member).1, fun exact => ?_⟩
  exact congrArg List.sum (List.map_congr_left fun node member =>
    (each node member).2 (exact node member))

theorem length_directives_lowered_of_keptBy
    (kept : .templateLiteral ∈ rules → KeptBy .templateLiteral above node) :
    (lowered rules (depthLeft + 1) above node).directives.length =
      ((entered rules above node).children.map fun child =>
        (lowered rules depthLeft (some node.kind) child).directives.length).sum +
          if (walked rules depthLeft above node).isDirective then 1 else 0 := by
  rw [lowered_of_keptBy kept, Node.length_directives, walked, Node.children_mapChildren,
    kind_entered, List.map_map]
  rfl

/-- A template is no statement, and loses the substitutions without a segment. -/
theorem length_directives_lowered_template (member : .templateLiteral ∈ rules)
    (untagged : parent ≠ .taggedTemplate) :
    (lowered rules (depthLeft + 1) (some parent)
        (.templateLiteral quasis expressions)).directives.length =
      ((expressions.take quasis.length).map fun child =>
        (lowered rules depthLeft (some .templateLiteral) child).directives.length).sum := by
  rw [lowered_template member untagged, directives_flatten, ← List.map_take,
    List.length_flatMap, List.map_map]
  rfl

/-- After a walk there are no more of the statements than are due, and just as many unless a
template has a substitution without a segment. -/
theorem directives_lowered (rules : List Rule) (depthLeft depth : Nat) (above : Option NodeKind)
    (node : Node) :
    (lowered rules depthLeft above node).directives.length ≤
        directivesDue rules (depth + depthLeft) depth above node ∧
      (node.Segmented → (lowered rules depthLeft above node).directives.length =
        directivesDue rules (depth + depthLeft) depth above node) := by
  induction depthLeft generalizing depth above node with
  | zero =>
      rw [Nat.add_zero, directivesDue_at_limit]
      exact ⟨Nat.le_refl _, fun _ => rfl⟩
  | succ depthLeft ih =>
      have below := sum_map_le_and_eq fun child (_ : child ∈ (entered rules above node).children) =>
        ih (depth + 1) (some node.kind) child
      rw [directivesDue_succ]
      by_cases kept : .templateLiteral ∈ rules → KeptBy .templateLiteral above node
      · rw [length_directives_lowered_of_keptBy kept]
        refine ⟨Nat.add_le_add_right below.1 _, fun segmented => ?_⟩
        rw [below.2 (segmented_children_entered segmented rules above)]
      · simp only [not_forall] at kept
        obtain ⟨member, kept⟩ := kept
        obtain ⟨parent, quasis, expressions, rfl, untagged, rfl⟩ :=
          exists_template_of_not_keptBy kept
        have whole : (walked rules depthLeft (some parent)
            (.templateLiteral quasis expressions)).isDirective = false := by
          rw [walked_template]
          rfl
        have unentered : entered rules (some parent) (.templateLiteral quasis expressions) =
            .templateLiteral quasis expressions :=
          entered_of_keptBy (by simp [KeptBy, rewritable_access_iff])
        rw [unentered] at below ⊢
        rw [length_directives_lowered_template member untagged, whole]
        refine ⟨Nat.le_trans ?_ below.1, fun segmented => ?_⟩
        · exact ((List.take_sublist _ _).map _).sum_le_sum fun _ _ => Nat.zero_le _
        · obtain ⟨enough, segmented⟩ := Node.segmented_template.mp segmented
          rw [List.take_of_length_le enough]
          exact below.2 segmented

/-- A run brings in a statement that is a string literal only where a template of constant text
stands as a statement of its own, above the limit; and there it always does. It takes none away
unless a template has a substitution without a segment. -/
theorem runStages_directives (rules : List Rule) (maxDepth : Nat) (stages : List Stage)
    (root : Node) :
    let after := ((Pipeline.ofRules rules maxDepth).runStages stages root).1.directives.length
    let created := if .templateLiteral ∈ rules ∧ .converting ∈ stages then
      root.sites.countP (·.createsDirective maxDepth) else 0
    after ≤ root.directives.length + created ∧
      (root.Segmented → after = root.directives.length + created) := by
  intro after created
  by_cases idle : .converting ∉ stages ∨ rules = []
  · have none : created = 0 := by
      refine if_neg fun both => ?_
      obtain ⟨member, converting⟩ := both
      rcases idle with absent | rfl
      · exact absent converting
      · cases member
    have same : after = root.directives.length + created := by
      simp only [after, none, (Pipeline.runStages_of_idle idle).1, Nat.add_zero]
    exact ⟨Nat.le_of_eq same, fun _ => same⟩
  · simp only [not_or, not_not] at idle
    have due : directivesDue rules.eraseDups maxDepth 0 none root =
        root.directives.length + created := by
      simp only [directivesDue, created, List.mem_eraseDups, idle.1, and_true, Node.sites]
    have tree : ((Pipeline.ofRules rules maxDepth).runStages stages root).1 =
        lowered rules.eraseDups maxDepth none root := by
      rw [(Pipeline.runStages_of_converting rules maxDepth root idle.1).1,
        (Pipeline.runStage_converting rules maxDepth root).1]
    have counted := directives_lowered rules.eraseDups maxDepth 0 none root
    rw [Nat.zero_add, due] at counted
    simp only [after, tree]
    exact counted

/-- Of two statements one is a directive already, and the other one becomes one. -/
theorem runStages_directives_strict :
    let root := Node.programOf [.expressionStatement (.template ["use strict"] []),
      .expressionStatement (.stringLiteral "use asm")]
    root.Segmented ∧
      ((Pipeline.ofRules Rule.all 3).runStages Stage.all root).1.directives.length = 1 + 1 := by
  intro root
  have segmented : root.Segmented := by
    simp (disch := decide) [root, Node.programOf, Node.template, Node.stringLiteral,
      Node.literalOf, Node.segmented_of_kind, Node.segmented_template, Node.children]
  have before : root.directives.length = 1 := by
    simp (disch := decide) [root, Node.programOf, Node.template, Node.stringLiteral,
      Node.literalOf, Node.directives_of_kind, Node.directives_statement, Node.children,
      Node.isStringLiteral, Node.stringLiteral?, LiteralValue.asString?]
  have created : root.sites.countP (·.createsDirective 3) = 1 := by
    simp [root, Node.sites, Node.sitesFrom_eq, Node.programOf, Node.template, Node.stringLiteral,
      Node.literalOf, Node.children, Node.kind, Site.createsDirective]
    rfl
  refine ⟨segmented, ((runStages_directives Rule.all 3 Stage.all root).2 segmented).trans ?_⟩
  rw [before, created]
  rfl

/-- A template at the head of a program becomes a directive. -/
theorem runStages_creates_directive :
    ¬ ∀ (rules : List Rule) (maxDepth : Nat) (stages : List Stage) (root : Node),
      ((Pipeline.ofRules rules maxDepth).runStages stages root).1.directives.length =
        root.directives.length := by
  intro kept
  let root := Node.programOf [.expressionStatement (.template ["use strict"] [])]
  have same := kept Rule.all 500 Stage.all root
  have result : ((Pipeline.ofRules Rule.all 500).runStages Stage.all root).1 =
      .programOf [.expressionStatement (.stringLiteral "use strict")] := rfl
  rw [result] at same
  simp (disch := decide) [root, Node.programOf, Node.template, Node.stringLiteral,
    Node.literalOf, Node.directives_of_kind, Node.directives_statement, Node.children,
    Node.isStringLiteral, Node.stringLiteral?, LiteralValue.asString?] at same

end EstreeLowering
