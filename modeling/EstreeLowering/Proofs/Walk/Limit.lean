import EstreeLowering.Proofs.Node.Plugging
import EstreeLowering.Proofs.Walk.Repetition

/-!
What stands at the depth limit is neither read nor changed.

A tree with placeholders at the limit goes through a run the same way whatever is plugged in for
them. A walk of one level more reaches them only through their parents, which ask of a child no
more than a filling hides. Flattening takes placeholders down and never up, so they stay out of
reach of the walks to come.
-/

namespace EstreeLowering

variable {rules : List Rule} {limit depthLeft : Nat} {above : Option NodeKind}
  {filling : Filling} {tree node inner : Node}

namespace Filling

/-- No placeholder stands less than `limit` levels below the top of the tree. -/
def Below (filling : Filling) (limit : Nat) (tree : Node) : Prop :=
  ∀ above depth kind node, tree.Occurs above depth kind node → (filling.at? node).isSome →
    limit ≤ depth

theorem below_zero : filling.Below 0 tree :=
  fun _ depth _ _ _ _ => Nat.zero_le depth

theorem below_succ_iff :
    filling.Below (limit + 1) tree ↔
      filling.at? tree = none ∧ ∀ child ∈ tree.children, filling.Below limit child := by
  constructor
  · intro below
    refine ⟨?_, ?_⟩
    · by_contra placeholder
      have impossible := below none 0 none tree .here (Option.isSome_iff_ne_none.mpr placeholder)
      omega
    · intro child isChild above depth kind node occurs placeholder
      obtain ⟨kind', occurs⟩ := occurs.reparent (some tree.kind)
      have deeper := below none (depth + 1) kind' node
        (.inside (Node.mem_children.mp isChild) occurs) placeholder
      omega
  · intro both above depth kind node occurs placeholder
    obtain ⟨ordinary, below⟩ := both
    cases occurs with
    | here => simp [ordinary] at placeholder
    | inside part within =>
        exact Nat.succ_le_succ
          (below _ (Node.mem_children.mpr part) _ _ _ _ within placeholder)

theorem below_stringLiteral (isString : node.isStringLiteral = true) :
    filling.Below limit node := by
  intro above depth kind inner occurs placeholder
  rw [occurs.contains.eq_of_leaf (Node.children_of_isStringLiteral isString)] at placeholder
  simp [at?_of_isStringLiteral isString] at placeholder

/-- Flattening takes everything below a template one level down, or further. -/
theorem below_flatten {quasis : List TemplateElement} {expressions : List Node}
    (below : ∀ expression ∈ expressions, filling.Below limit expression) :
    filling.Below (limit + 1) (Template.flatten quasis expressions) := by
  intro above depth kind node occurs placeholder
  rcases Template.cases_of_occurs_flatten occurs with
    isString | ⟨left, right, rfl⟩ | ⟨expression, substituted, deep, lower, within⟩
  · simp [at?_of_isStringLiteral isString] at placeholder
  · cases placeholder
  · have deeper := below expression substituted _ deep kind node within placeholder
    omega

end Filling

@[simp] theorem at?_entered (filling : Filling) (rules : List Rule) (above : Option NodeKind)
    (node : Node) : filling.at? (entered rules above node) = filling.at? node := by
  rcases entered_eq_or rules above node with same | ⟨object, key, optional, rfl, same⟩ <;> rw [same]
  rfl

@[simp] theorem at?_walked (filling : Filling) (rules : List Rule) (depthLeft : Nat)
    (above : Option NodeKind) (node : Node) :
    filling.at? (walked rules depthLeft above node) = filling.at? node := by
  simp [walked]

theorem below_lowered (below : filling.Below depthLeft node) :
    filling.Below depthLeft (lowered rules depthLeft above node) := by
  induction depthLeft generalizing above node with
  | zero => exact Filling.below_zero
  | succ depthLeft ih =>
      obtain ⟨ordinary, below⟩ := Filling.below_succ_iff.mp below
      have inside : ∀ child ∈ (walked rules depthLeft above node).children,
          filling.Below depthLeft child := by
        simp only [walked, Node.children_mapChildren, List.forall_mem_map]
        intro child isChild
        -- What entering puts in beside the children that were there is a string literal.
        rcases mem_children_entered isChild with isChild | isString
        · exact ih (below child isChild)
        · rw [lowered_stringLiteral isString]
          exact Filling.below_stringLiteral isString
      rw [lowered_succ]
      rcases exited_eq_or rules above (walked rules depthLeft above node) with
        same | ⟨quasis, expressions, template, same⟩
      · rw [same]
        exact Filling.below_succ_iff.mpr ⟨by simpa using ordinary, inside⟩
      · rw [template] at inside
        rw [same]
        exact Filling.below_flatten inside

theorem congruence_plug (filling : Filling) :
    Template.Congruence fun plugged node => plugged = node.plug filling where
  literal isString := (Node.plug_stringLiteral isString).symm
  addition := by
    rintro left left' right right' rfl rfl
    rw [Node.plug_binary]
  agree := by
    rintro plugged node rfl
    exact Node.stringLiteral?_plug filling node

theorem plug_flatten (quasis : List TemplateElement) (expressions : List Node) :
    Template.flatten quasis (expressions.map (Node.plug filling)) =
      (Template.flatten quasis expressions).plug filling := by
  have related : List.Forall₂ (fun plugged node => plugged = node.plug filling)
      (expressions.map (Node.plug filling)) expressions := by
    simp [List.forall₂_map_left_iff, List.forall₂_same]
  exact (congruence_plug filling).related_flatten related

section

variable (ordinary : filling.at? node = none)

include ordinary

theorem kind_plug : (node.plug filling).kind = node.kind := by
  simp [Node.plug_of_none ordinary]

theorem entered_plug :
    entered rules above (node.plug filling) =
      (entered rules above node).mapChildren (Node.plug filling) := by
  rw [Node.plug_of_none ordinary]
  exact entered_mapChildren Node.plug_identifier (fun _ => Node.plug_stringLiteral)
    (fun _ _ => Node.eq_identifier_of_plug) rules above node

theorem exited_plug :
    exited rules above (node.plug filling) = (exited rules above node).plug filling ∧
      replacements rules above (node.plug filling) = replacements rules above node := by
  by_cases kept : KeptBy .templateLiteral above node
  · have keptPlugged := (keptBy_template_congr (kind_plug ordinary)).mpr kept
    rw [(exited_of_keptBy kept).1, (exited_of_keptBy kept).2, (exited_of_keptBy keptPlugged).1,
      (exited_of_keptBy keptPlugged).2]
    exact ⟨rfl, rfl⟩
  · obtain ⟨parent, quasis, expressions, rfl, untagged, rfl⟩ := exists_template_of_not_keptBy kept
    by_cases member : .templateLiteral ∈ rules
    · obtain ⟨flattened, counted⟩ := exited_template member untagged quasis expressions
      obtain ⟨flattenedPlugged, countedPlugged⟩ :=
        exited_template member untagged quasis (expressions.map (Node.plug filling))
      rw [Node.plug_templateLiteral, flattened, flattenedPlugged, counted, countedPlugged]
      exact ⟨plug_flatten quasis expressions, rfl⟩
    · simp [exited, replacements, member]

end

theorem walked_plug (ordinary : filling.at? node = none)
    (inside : ∀ child ∈ node.children,
      lowered rules depthLeft (some node.kind) (child.plug filling) =
        (lowered rules depthLeft (some node.kind) child).plug filling) :
    walked rules depthLeft above (node.plug filling) =
      (walked rules depthLeft above node).plug filling := by
  rw [Node.plug_of_none ((at?_walked filling rules depthLeft above node).trans ordinary),
    walked, walked, entered_plug ordinary, Node.kind_mapChildren, kind_entered,
    Node.mapChildren_mapChildren, Node.mapChildren_mapChildren]
  apply Node.mapChildren_congr
  intro child isChild
  rcases mem_children_entered isChild with isChild | isString
  · exact inside child isChild
  · simp [lowered_stringLiteral, Node.plug_stringLiteral, isString]

theorem lowered_plug (below : filling.Below depthLeft node) :
    lowered rules depthLeft above (node.plug filling) =
      (lowered rules depthLeft above node).plug filling := by
  induction depthLeft generalizing above node with
  | zero => rfl
  | succ depthLeft ih =>
      obtain ⟨ordinary, below⟩ := Filling.below_succ_iff.mp below
      rw [lowered_succ, lowered_succ,
        walked_plug ordinary fun child isChild => ih (below child isChild)]
      exact (exited_plug (by simpa using ordinary)).1

theorem tallied_plug (below : filling.Below depthLeft node) :
    tallied rules depthLeft above (node.plug filling) = tallied rules depthLeft above node := by
  induction depthLeft generalizing above node with
  | zero => rfl
  | succ depthLeft ih =>
      obtain ⟨ordinary, below⟩ := Filling.below_succ_iff.mp below
      have counts : ∀ child ∈ (entered rules above node).children,
          tallied rules depthLeft (some node.kind) (child.plug filling) =
            tallied rules depthLeft (some node.kind) child := by
        intro child isChild
        rcases mem_children_entered isChild with isChild | isString
        · exact ih (below child isChild)
        · rw [Node.plug_stringLiteral isString]
      rw [tallied, tallied, entered_plug ordinary, Node.kind_mapChildren, kind_entered,
        Node.children_mapChildren, List.map_map,
        walked_plug ordinary fun child isChild => lowered_plug (below child isChild),
        (exited_plug (by simpa using ordinary)).2]
      simp only [List.map_congr_left counts, Function.comp_def]

/-- The second node stands in a substitution of a template that has no segment before it. -/
def Node.Surplus (tree inner : Node) : Prop :=
  ∃ quasis expressions, tree.Contains (.templateLiteral quasis expressions) ∧
    ∃ expression ∈ expressions.drop quasis.length, expression.Contains inner

theorem Node.Surplus.of_child {child : Node} (isChild : child ∈ node.children)
    (surplus : child.Surplus inner) : node.Surplus inner := by
  obtain ⟨quasis, expressions, contains, dropped⟩ := surplus
  exact ⟨quasis, expressions, (contains_child isChild).trans contains, dropped⟩

theorem contains_walked {child : Node} (undedicated : inner.kind = .other)
    (isChild : child ∈ node.children)
    (inside : (lowered rules depthLeft (some node.kind) child).Contains inner) :
    (walked rules depthLeft above node).Contains inner := by
  rcases mem_children_entered_of_mem isChild with isChild | ⟨name, rfl⟩
  · refine (Node.contains_child ?_).trans inside
    rw [walked, Node.children_mapChildren, kind_entered]
    exact List.mem_map_of_mem isChild
  · rw [lowered_identifier] at inside
    rw [inside.eq_of_leaf rfl] at undedicated
    cases undedicated

theorem contains_flatten {quasis : List TemplateElement} {expressions : List Node}
    {change : Node → Node} {child : Node} (undedicated : inner.kind = .other)
    (used : child ∈ expressions.take quasis.length) (inside : (change child).Contains inner) :
    (Template.flatten quasis (expressions.map change)).Contains inner := by
  have noString : (change child).isStringLiteral = false := by
    by_contra isString
    rw [Bool.not_eq_false] at isString
    rw [inside.eq_of_leaf (Node.children_of_isStringLiteral isString)] at undedicated
    simp [Node.isStringLiteral, Node.stringLiteral?_eq_none, undedicated] at isString
  have substituted : change child ∈ (expressions.map change).take quasis.length := by
    rw [← List.map_take]
    exact List.mem_map_of_mem used
  obtain ⟨depth, occurs⟩ := @Template.occurs_flatten _ _ _ none substituted noString
  exact occurs.contains.trans inside

/-- What a child holds after the walk is in the tree, unless flattening drops the child. -/
theorem contains_lowered_of_child {child : Node} (undedicated : inner.kind = .other)
    (isChild : child ∈ node.children) (before : child.Contains inner)
    (inside : (lowered rules depthLeft (some node.kind) child).Contains inner) :
    (lowered rules (depthLeft + 1) above node).Contains inner ∨ node.Surplus inner := by
  by_cases kept : .templateLiteral ∈ rules → KeptBy .templateLiteral above node
  · rw [lowered_of_keptBy kept]
    exact .inl (contains_walked undedicated isChild inside)
  · simp only [not_forall] at kept
    obtain ⟨member, kept⟩ := kept
    obtain ⟨parent, quasis, expressions, rfl, untagged, rfl⟩ := exists_template_of_not_keptBy kept
    rw [lowered_template member untagged]
    rw [Node.children, ← List.take_append_drop quasis.length expressions,
      List.mem_append] at isChild
    rcases isChild with used | dropped
    · exact .inl (contains_flatten undedicated used inside)
    · exact .inr ⟨quasis, expressions, Node.contains_self, child, dropped, before⟩

theorem contains_lowered {elsewhere kind : Option NodeKind} {depth : Nat}
    (undedicated : inner.kind = .other) (occurs : node.Occurs elsewhere depth kind inner)
    (deep : depthLeft ≤ depth) :
    (lowered rules depthLeft above node).Contains inner ∨ node.Surplus inner := by
  induction depthLeft generalizing above node elsewhere depth with
  | zero => exact .inl occurs.contains
  | succ depthLeft ih =>
      cases depth with
      | zero => omega
      | succ depth =>
          obtain ⟨child, isChild, within⟩ := occurs.exists_child
          have inside : (lowered rules depthLeft (some node.kind) child).Contains inner ∨
              child.Surplus inner := ih within (Nat.le_of_succ_le_succ deep)
          rcases inside with inside | surplus
          · exact contains_lowered_of_child undedicated isChild within.contains inside
          · exact .inr (surplus.of_child isChild)

section

variable {maxDepth : Nat} {stage : Stage} {stages : List Stage} {context : Node}

theorem runStage_plug (below : filling.Below maxDepth context) (rules : List Rule)
    (stage : Stage) :
    let run := (Pipeline.ofRules rules maxDepth).runStage stage
    (run (context.plug filling)).1 = (run context).1.plug filling ∧
      (run (context.plug filling)).2.tally = (run context).2.tally ∧
      filling.Below maxDepth (run context).1 := by
  intro run
  rcases Pipeline.runStage_cases rules maxDepth stage with idle | walks
  · simp [run, idle, below]
  · simp [run, walks, lowered_plug below, tallied_plug below, below_lowered below]

theorem runStages_contains (below : filling.Below maxDepth context) (rules : List Rule)
    (stages : List Stage) (occurs : context.Contains inner)
    (placeholder : (filling.at? inner).isSome) :
    ((Pipeline.ofRules rules maxDepth).runStages stages context).1.Contains inner ∨
      context.Surplus inner := by
  -- Later walks leave the result of the first one as it is, so only that one can drop anything.
  by_cases idle : .converting ∉ stages ∨ rules = []
  · rw [(Pipeline.runStages_of_idle idle).1]
    exact .inl occurs
  · simp only [not_or, not_not] at idle
    rw [(Pipeline.runStages_of_converting rules maxDepth context idle.1).1,
      (Pipeline.runStage_converting rules maxDepth context).1]
    obtain ⟨above, depth, kind, occurs⟩ := occurs
    have deep := below above depth kind inner occurs placeholder
    exact contains_lowered (Filling.kind_of_at? placeholder) occurs deep

theorem runStages_plug (below : filling.Below maxDepth context) (rules : List Rule)
    (stages : List Stage) :
    let run := (Pipeline.ofRules rules maxDepth).runStages stages
    (run (context.plug filling)).1 = (run context).1.plug filling ∧
      (run (context.plug filling)).2.tally = (run context).2.tally := by
  induction stages generalizing context with
  | nil => exact ⟨rfl, rfl⟩
  | cons stage stages ih =>
      obtain ⟨tree, tally, below⟩ := runStage_plug below rules stage
      obtain ⟨trees, tallies⟩ := ih below
      simp only [Pipeline.runStages_cons_tree, Pipeline.runStages_cons_tally, tree, tally, trees,
        tallies, and_self]

/-- With trees plugged in at the depth limit or below it, a run leaves what it leaves without them,
with the same trees plugged in where their placeholders then stand, and counts the same. A
placeholder gets lost only in a surplus substitution of a template. -/
theorem runStages_parametric_below_limit (below : filling.Below maxDepth context)
    (rules : List Rule) (stages : List Stage) :
    let run := (Pipeline.ofRules rules maxDepth).runStages stages
    (run (context.plug filling)).1 = (run context).1.plug filling ∧
      (run (context.plug filling)).2.tally = (run context).2.tally ∧
      ∀ placeholder, context.Contains placeholder → (filling.at? placeholder).isSome →
        (run context).1.Contains placeholder ∨ context.Surplus placeholder := by
  intro run
  obtain ⟨tree, tally⟩ := runStages_plug below rules stages
  exact ⟨tree, tally, fun _ => runStages_contains below rules stages⟩

/-- A template for one placeholder and a block for another one. -/
def someFilling : Filling where
  tree?
    | "Hole" => some (.template ["b", ""] [.access (.identifier "o") (.identifier "k") false])
    | "Lost" => some (.blockStatement [])
    | _ => none
  hidden := by
    intro typeName tree held
    split at held <;> cases held <;> decide

/-- The template is flattened around the first placeholder and drops the second one. -/
theorem runStages_parametric_below_limit_surplus :
    let context := Node.expressionStatement
      (.template ["a"] [.other "Hole" [], .other "Lost" []])
    let run := (Pipeline.ofRules Rule.all 2).runStages [.converting, .finalizing, .converting]
    someFilling.Below 2 context ∧
      (run (context.plug someFilling)).1 = .expressionStatement (.binary "+" (.stringLiteral "a")
        (.template ["b", ""] [.access (.identifier "o") (.identifier "k") false])) ∧
      (run (context.plug someFilling)).2.tally = ⟨4, 1⟩ ∧
      ((run context).1.Contains (.other "Lost" []) ∨ context.Surplus (.other "Lost" [])) := by
  intro context run
  have below : someFilling.Below 2 context := by
    simp [context, Filling.below_succ_iff, Filling.below_zero, Node.children, Filling.at?,
      Node.template]
  obtain ⟨tree, tally, placeholders⟩ := runStages_parametric_below_limit below Rule.all
    [.converting, .finalizing, .converting]
  have result : (run context).1 =
      .expressionStatement (.binary "+" (.stringLiteral "a") (.other "Hole" [])) := rfl
  refine ⟨below, ?_, tally, placeholders (.other "Lost" []) ?_ rfl⟩
  · have hole : (Node.other "Hole" []).plug someFilling =
        .template ["b", ""] [.access (.identifier "o") (.identifier "k") false] :=
      Node.plug_placeholder rfl
    have text : (Node.stringLiteral "a").plug someFilling = .stringLiteral "a" :=
      Node.plug_stringLiteral rfl
    rw [tree, result, Node.plug_of_none rfl, ← hole]
    simp [Node.mapChildren, Node.children, Node.withChildren, text]
  · have surplus : Node.PartOf (.other "Lost" [])
        (.template ["a"] [.other "Hole" [], .other "Lost" []]) := .substitution (by simp)
    exact ⟨none, 2, _, .inside .expression (.inside surplus .here)⟩

end

end EstreeLowering
