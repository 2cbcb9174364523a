import EstreeLowering.Proofs.Walk.Settling

/-!
One walk with both rules against a walk for each of them.

The rule for accesses works on entering and the one for templates on leaving, and neither changes
what the other one looks at: kinds, identifiers and string literals. So accesses may be converted
in a walk of their own before the templates are flattened. Afterwards they may be converted only if
flattening has left nothing beyond the limit: a substitution that a chain takes down out of the
reach of the second walk keeps its accesses.
-/

namespace EstreeLowering

variable {rules both : List Rule} {limit depthLeft : Nat} {above : Option NodeKind}
  {parent : NodeKind} {tree node : Node}

@[simp] theorem entered_templates (above : Option NodeKind) (node : Node) :
    entered [.templateLiteral] above node = node := by
  simp [entered]

@[simp] theorem exited_accesses (above : Option NodeKind) (node : Node) :
    exited [.memberAccess] above node = node := by
  simp [exited]

@[simp] theorem replacements_accesses (above : Option NodeKind) (node : Node) :
    replacements [.memberAccess] above node = 0 := by
  simp [replacements]

theorem entered_of_mem (accesses : .memberAccess ∈ rules) (above : Option NodeKind) (node : Node) :
    entered rules above node = entered [.memberAccess] above node := by
  simp [entered, accesses]

theorem exited_of_mem (templates : .templateLiteral ∈ rules) (above : Option NodeKind)
    (node : Node) : exited rules above node = exited [.templateLiteral] above node := by
  simp [exited, templates]

theorem replacements_of_mem (templates : .templateLiteral ∈ rules) (above : Option NodeKind)
    (node : Node) :
    replacements rules above node = replacements [.templateLiteral] above node := by
  simp [replacements, templates]

section

variable (accesses : .memberAccess ∈ both) (templates : .templateLiteral ∈ both) (depthLeft : Nat)
  (above : Option NodeKind) (node : Node)

include accesses templates in
theorem lowered_both :
    lowered both depthLeft above node =
      lowered [.templateLiteral] depthLeft above
        (lowered [.memberAccess] depthLeft above node) := by
  induction depthLeft generalizing above node with
  | zero => rfl
  | succ depthLeft ih =>
      simp only [lowered, entered_templates, exited_accesses, Node.kind_mapChildren,
        Node.mapChildren_mapChildren, entered_of_mem accesses, exited_of_mem templates]
      rw [Node.mapChildren_congr fun child _ => ih _ child]

include accesses templates in
theorem tallied_both :
    tallied both depthLeft above node =
      tallied [.templateLiteral] depthLeft above
        (lowered [.memberAccess] depthLeft above node) := by
  induction depthLeft generalizing above node with
  | zero => rfl
  | succ depthLeft ih =>
      simp only [lowered, tallied, walked, entered_templates, exited_accesses,
        Node.kind_mapChildren, Node.mapChildren_mapChildren, Node.children_mapChildren,
        List.map_map, entered_of_mem accesses, replacements_of_mem templates]
      rw [Node.mapChildren_congr fun child _ => lowered_both accesses templates depthLeft _ child,
        List.map_congr_left fun child _ => ih _ child]
      rfl

include accesses in
/-- Which nodes a walk reaches below a node is settled on entering it. -/
theorem visited_tallied_accesses :
    (tallied [.memberAccess] depthLeft above node).visited =
      (tallied both depthLeft above node).visited := by
  induction depthLeft generalizing above node with
  | zero => rfl
  | succ depthLeft ih =>
      simp [tallied, Tally.add, Tally.visited_sum, Function.comp_def, entered_of_mem accesses, ih]

theorem replaced_tallied_accesses :
    (tallied [.memberAccess] depthLeft above node).replaced = 0 := by
  induction depthLeft generalizing above node with
  | zero => rfl
  | succ depthLeft ih => simp [tallied, Tally.add, Tally.replaced_sum, Function.comp_def, ih]

end

theorem lowered_of_within (within : tree.Within limit) (lower : limit ≤ depthLeft)
    (above : Option NodeKind) :
    lowered rules depthLeft above tree = lowered rules limit above tree := by
  induction limit generalizing depthLeft above tree with
  | zero => exact absurd within Node.not_within_zero
  | succ limit ih =>
      cases depthLeft with
      | zero => exact absurd lower (Nat.not_succ_le_zero limit)
      | succ depthLeft =>
          have below := Node.within_succ_iff.mp within
          rw [lowered_succ, lowered_succ, walked, walked, Node.mapChildren_congr]
          intro child isChild
          rcases mem_children_entered isChild with isChild | isString
          · exact ih (below child isChild) (Nat.le_of_succ_le_succ lower) _
          · simp [lowered_stringLiteral isString]

theorem lowered_eq_of_within {less : Nat} (within : tree.Within limit) (within' : tree.Within less)
    (above : Option NodeKind) :
    lowered rules limit above tree = lowered rules less above tree := by
  rcases Nat.le_total limit less with lower | lower
  · exact (lowered_of_within within lower above).symm
  · exact lowered_of_within within' lower above

theorem enter_reparent (elsewhere : NodeKind) (node : Node) :
    MemberAccess.enter node (some parent) = MemberAccess.enter node (some elsewhere) := by
  simp only [MemberAccess.enter]
  cases MemberAccess.convert? node <;> rfl

/-- Converting accesses asks of a parent only that there is one. -/
theorem lowered_accesses_reparent (depthLeft : Nat) (elsewhere : NodeKind) (node : Node) :
    lowered [.memberAccess] depthLeft (some parent) node =
      lowered [.memberAccess] depthLeft (some elsewhere) node := by
  cases depthLeft with
  | zero => rfl
  | succ depthLeft => simp only [lowered, entered, enter_reparent elsewhere, exited_accesses]

theorem stringLiteral?_lowered_accesses (depthLeft : Nat) (above : Option NodeKind) (node : Node) :
    (lowered [.memberAccess] depthLeft above node).stringLiteral? = node.stringLiteral? := by
  cases depthLeft with
  | zero => rfl
  | succ depthLeft => simp [lowered_succ, walked]

/-- The second tree is the first one with its accesses converted, wherever the first one stands and
however far beyond its deepest node the walk would go. -/
def ConvertsTo (before after : Node) : Prop :=
  before.stringLiteral? = after.stringLiteral? ∧
    ∀ limit parent, before.Within limit →
      lowered [.memberAccess] limit (some parent) before = after

theorem convertsTo_lowered (within : tree.Within limit) :
    ConvertsTo tree (lowered [.memberAccess] limit (some parent) tree) := by
  refine ⟨(stringLiteral?_lowered_accesses limit _ tree).symm, ?_⟩
  intro more elsewhere within'
  rw [lowered_eq_of_within within' within, lowered_accesses_reparent]

theorem congruence_convertsTo : Template.Congruence ConvertsTo where
  literal isString := ⟨rfl, fun _ _ _ => lowered_stringLiteral isString⟩
  agree converts := converts.1
  addition := by
    intro left left' right right' convertsLeft convertsRight
    refine ⟨rfl, ?_⟩
    intro limit parent within
    cases limit with
    | zero => exact absurd within Node.not_within_zero
    | succ limit =>
        have below := Node.within_succ_iff.mp within
        simp only [Node.children, List.forall_mem_cons] at below
        obtain ⟨withinLeft, withinRight, _⟩ := below
        rw [← convertsLeft.2 limit .binary withinLeft, ← convertsRight.2 limit .binary withinRight]
        rfl

/-- Flattening leaves a substitution at least as deep as it was, unless it is a string literal. -/
theorem Node.Within.of_flatten {quasis : List TemplateElement} {expressions : List Node}
    (within : (Template.flatten quasis expressions).Within (limit + 1))
    (used : node ∈ expressions.take quasis.length) (noString : node.isStringLiteral = false) :
    node.Within limit := by
  have occurs : ∃ depth, (Template.flatten quasis expressions).Occurs none (depth + 1)
      (some .binary) node := Template.occurs_flatten used noString
  obtain ⟨depth, occurs⟩ := occurs
  exact within.of_occurs occurs

/-- What flattening makes of a substitution converts to what a single walk makes of it, as a chain
within the limit has its substitutions one level within it. -/
theorem convertsTo_substitution
    (ih : ∀ {above node}, (lowered [.templateLiteral] depthLeft above node).Within depthLeft →
      lowered [.memberAccess] depthLeft above (lowered [.templateLiteral] depthLeft above node) =
        lowered both depthLeft above node)
    (within : (lowered [.templateLiteral] depthLeft (some parent) node).isStringLiteral = false →
      (lowered [.templateLiteral] depthLeft (some parent) node).Within depthLeft) :
    ConvertsTo (lowered [.templateLiteral] depthLeft (some parent) node)
      (lowered both depthLeft (some parent) node) := by
  cases isString : (lowered [.templateLiteral] depthLeft (some parent) node).isStringLiteral with
  | false =>
      rw [← ih (within isString)]
      exact convertsTo_lowered (within isString)
  | true =>
      have same : lowered both depthLeft (some parent) node =
          lowered [.templateLiteral] depthLeft (some parent) node := by
        cases depthLeft with
        | zero => rfl
        | succ depthLeft =>
            rw [← ih (Node.within_of_isStringLiteral isString)]
            exact lowered_stringLiteral isString
      rw [same]
      exact congruence_convertsTo.literal isString

theorem lowered_accesses_last (accesses : .memberAccess ∈ both)
    (templates : .templateLiteral ∈ both)
    (within : (lowered [.templateLiteral] depthLeft above node).Within depthLeft) :
    lowered [.memberAccess] depthLeft above (lowered [.templateLiteral] depthLeft above node) =
      lowered both depthLeft above node := by
  induction depthLeft generalizing above node with
  | zero => exact absurd within Node.not_within_zero
  | succ depthLeft ih =>
      by_cases kept : KeptBy .templateLiteral above node
      · rw [lowered_of_keptBy fun _ => kept] at within ⊢
        have below := Node.within_succ_iff.mp within
        simp only [walked, entered_templates, Node.children_mapChildren,
          List.forall_mem_map] at below
        -- Entering the node before or after its templates are flattened is the same.
        have entering : entered [.memberAccess] above
            (node.mapChildren (lowered [.templateLiteral] depthLeft (some node.kind))) =
            (entered [.memberAccess] above node).mapChildren
              (lowered [.templateLiteral] depthLeft (some node.kind)) :=
          entered_mapChildren (fun _ => lowered_identifier) (fun _ => lowered_stringLiteral)
            (fun _ _ => eq_identifier_of_lowered) _ above node
        rw [lowered_of_keptBy fun _ => kept, lowered_succ, exited_accesses, walked, walked, walked,
          entered_templates, entering, Node.mapChildren_mapChildren, Node.kind_mapChildren,
          kind_entered, kind_entered, entered_of_mem accesses]
        apply Node.mapChildren_congr
        intro child isChild
        rcases mem_children_entered isChild with isChild | isString
        · exact ih (below child isChild)
        · simp [lowered_stringLiteral isString]
      · obtain ⟨parent, quasis, expressions, rfl, untagged, rfl⟩ :=
          exists_template_of_not_keptBy kept
        rw [lowered_template List.mem_cons_self untagged] at within ⊢
        rw [lowered_template templates untagged]
        have converts : ∀ expression ∈ expressions.take quasis.length,
            ConvertsTo (lowered [.templateLiteral] depthLeft (some .templateLiteral) expression)
              (lowered both depthLeft (some .templateLiteral) expression) := by
          intro expression used
          refine convertsTo_substitution ih fun noString => within.of_flatten ?_ noString
          rw [← List.map_take]
          exact List.mem_map_of_mem used
        exact (congruence_convertsTo.related_flatten_map converts).2 _ _ within

/-- One walk with both rules leaves the tree that a walk with the rule for accesses and then one
with the rule for templates leave. All three visit as many nodes, and the templates are replaced in
the last one. In the other order the tree is the same if all of the tree between the two walks
stands within the limit. -/
theorem runStage_converting_fused (accesses : .memberAccess ∈ both)
    (templates : .templateLiteral ∈ both) (maxDepth : Nat) (root : Node) :
    let stage rules := (Pipeline.ofRules rules maxDepth).runStage .converting
    let together := stage both root
    let accessesFirst := stage [.memberAccess] root
    let templatesLast := stage [.templateLiteral] accessesFirst.1
    let templatesFirst := stage [.templateLiteral] root
    let accessesLast := stage [.memberAccess] templatesFirst.1
    templatesLast.1 = together.1 ∧ templatesLast.2.tally = together.2.tally ∧
      accessesFirst.2.tally.visited = together.2.tally.visited ∧
      accessesFirst.2.tally.replaced = 0 ∧
      (templatesFirst.1.Within maxDepth → accessesLast.1 = together.1) := by
  intro stage together accessesFirst templatesLast templatesFirst accessesLast
  have accesses' := List.mem_eraseDups.mpr accesses
  have templates' := List.mem_eraseDups.mpr templates
  have walks (rules : List Rule) (registered : rules ≠ []) (tree : Node) :
      (stage rules tree).1 = lowered rules.eraseDups maxDepth none tree ∧
        (stage rules tree).2.tally = tallied rules.eraseDups maxDepth none tree :=
    Pipeline.runStage_of_rules maxDepth tree registered
  obtain ⟨togetherTree, togetherTally⟩ := walks both (List.ne_nil_of_mem accesses) root
  obtain ⟨firstTree, firstTally⟩ := walks [.memberAccess] (List.cons_ne_nil _ _) root
  obtain ⟨lastTree, lastTally⟩ := walks [.templateLiteral] (List.cons_ne_nil _ _) accessesFirst.1
  refine ⟨?_, ?_, ?_, ?_, ?_⟩
  · calc templatesLast.1
        _ = lowered [.templateLiteral] maxDepth none accessesFirst.1 := lastTree
        _ = lowered [.templateLiteral] maxDepth none (lowered [.memberAccess] maxDepth none root) :=
          congrArg _ firstTree
        _ = together.1 :=
          (togetherTree.trans (lowered_both accesses' templates' maxDepth none root)).symm
  · calc templatesLast.2.tally
        _ = tallied [.templateLiteral] maxDepth none accessesFirst.1 := lastTally
        _ = tallied [.templateLiteral] maxDepth none (lowered [.memberAccess] maxDepth none root) :=
          congrArg _ firstTree
        _ = together.2.tally :=
          (togetherTally.trans (tallied_both accesses' templates' maxDepth none root)).symm
  · calc accessesFirst.2.tally.visited
        _ = (tallied [.memberAccess] maxDepth none root).visited :=
          congrArg Tally.visited firstTally
        _ = (tallied both.eraseDups maxDepth none root).visited :=
          visited_tallied_accesses accesses' maxDepth none root
        _ = together.2.tally.visited := (congrArg Tally.visited togetherTally).symm
  · exact (congrArg Tally.replaced firstTally).trans (replaced_tallied_accesses maxDepth none root)
  · intro within
    have betweenTree : templatesFirst.1 = lowered [.templateLiteral] maxDepth none root :=
      (walks [.templateLiteral] (List.cons_ne_nil _ _) root).1
    calc accessesLast.1
        _ = lowered [.memberAccess] maxDepth none templatesFirst.1 :=
          (walks [.memberAccess] (List.cons_ne_nil _ _) templatesFirst.1).1
        _ = lowered [.memberAccess] maxDepth none (lowered [.templateLiteral] maxDepth none root) :=
          congrArg _ betweenTree
        _ = lowered both.eraseDups maxDepth none root :=
          lowered_accesses_last accesses' templates' (betweenTree ▸ within)
        _ = together.1 := togetherTree.symm

/-- An access to a template in a template; the chain between the walks is as deep as they go. -/
theorem runStage_converting_fused_nested :
    let stage rules := (Pipeline.ofRules rules 5).runStage .converting
    let root := Node.expressionStatement (.template ["", "!"]
      [.access (.template ["a", ""] [.identifier "x"]) (.identifier "k") false])
    let between := Node.expressionStatement (.binary "+"
      (.access (.binary "+" (.stringLiteral "a") (.identifier "x")) (.identifier "k") false)
      (.stringLiteral "!"))
    .memberAccess ∈ Rule.all ∧ .templateLiteral ∈ Rule.all ∧
      (stage [.templateLiteral] root).1 = between ∧ between.Within 5 ∧
      (stage [.memberAccess] between).1 = (stage Rule.all root).1 ∧
      (stage [.memberAccess] root).2.tally = ⟨6, 0⟩ ∧ (stage Rule.all root).2.tally = ⟨6, 2⟩ := by
  intro stage root between
  have fused := @runStage_converting_fused Rule.all (by decide) (by decide) 5 root
  have flattened : (stage [.templateLiteral] root).1 = between := rfl
  have within : between.Within 5 := by
    simp [between, Node.within_succ_iff, Node.children, Node.access, Node.stringLiteral,
      Node.literalOf]
  have order : (stage [.memberAccess] between).1 = (stage Rule.all root).1 := by
    obtain ⟨_, _, _, _, order⟩ := fused
    exact order (flattened ▸ within)
  exact ⟨by decide, by decide, flattened, within, order, rfl, rfl⟩

/-- One level less, and the access that the chain takes down is out of reach. -/
example :
    let stage rules := (Pipeline.ofRules rules 3).runStage .converting
    let root := Node.expressionStatement (.template ["", "", ""]
      [.access (.identifier "o") (.identifier "k") false, .identifier "x"])
    (stage [.memberAccess] (stage [.templateLiteral] root).1).1 ≠ (stage Rule.all root).1 := by
  nofun

end EstreeLowering
