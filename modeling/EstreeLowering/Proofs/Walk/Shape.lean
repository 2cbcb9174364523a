import EstreeLowering.Proofs.Walk.RewritePreorder

namespace EstreeLowering

namespace Node

def IsName (node : Node) : Prop :=
  node.kind = .identifier ∨ node.kind = .privateIdentifier

def ShapedTop : Node → Prop
  | .templateLiteral quasis expressions => quasis.length = expressions.length + 1
  | .taggedTemplate _ quasi => quasi.kind = .templateLiteral
  | .member _ property computed _ => computed = false → property.IsName
  | _ => True

def Shaped (tree : Node) : Prop :=
  ∀ node, tree.Contains node → node.ShapedTop

/-- The segments of a template and the number of its substitutions. -/
def segments? : Node → Option (List TemplateElement × Nat)
  | .templateLiteral quasis expressions => some (quasis, expressions.length)
  | _ => none

def taggedTemplates (tree : Node) : List Node :=
  tree.postorder.filter fun node => node.kind = .taggedTemplate

/-- Two tagged templates with the same segments and equally many substitutions. -/
inductive SameSegments : Node → Node → Prop
  | intro {tag tag' quasis expressions expressions'}
      (lengths : expressions'.length = expressions.length) :
      SameSegments (.taggedTemplate tag (.templateLiteral quasis expressions))
        (.taggedTemplate tag' (.templateLiteral quasis expressions'))

variable {tree node : Node} {change : Node → Node}

theorem shaped_iff : tree.Shaped ↔ tree.ShapedTop ∧ ∀ child ∈ tree.children, child.Shaped :=
  forall_contains_iff

theorem segments?_eq_none (another : node.kind ≠ .templateLiteral) : node.segments? = none := by
  cases node with
  | templateLiteral => exact absurd rfl another
  | _ => rfl

theorem isSome_segments? : node.segments?.isSome ↔ node.kind = .templateLiteral := by
  cases node <;> simp [segments?, kind]

@[simp] theorem segments?_mapChildren (change : Node → Node) (node : Node) :
    (node.mapChildren change).segments? = node.segments? := by
  by_cases another : node.kind ≠ .templateLiteral
  · rw [segments?_eq_none another, segments?_eq_none (by simpa using another)]
  · cases node with
    | templateLiteral => simp [mapChildren, withChildren, children, segments?]
    | _ => simp [kind] at another

theorem eq_taggedTemplate_of_kind (tagged : node.kind = .taggedTemplate) :
    ∃ tag quasi, node = .taggedTemplate tag quasi := by
  cases node with
  | taggedTemplate tag quasi => exact ⟨tag, quasi, rfl⟩
  | _ => cases tagged

def taken : Node → List (Option (List TemplateElement × Nat))
  | .taggedTemplate _ quasi => [quasi.segments?]
  | _ => []

/-- What each tagged template of a tree takes. -/
def takenBelow (tree : Node) : List (Option (List TemplateElement × Nat)) :=
  tree.postorder.flatMap taken

theorem takenBelow_eq (tree : Node) :
    tree.takenBelow = tree.children.flatMap takenBelow ++ tree.taken := by
  rw [takenBelow, postorder_eq, List.flatMap_append, List.flatMap_assoc, List.flatMap_singleton]
  rfl

theorem taken_eq_nil (another : node.kind ≠ .taggedTemplate) : node.taken = [] := by
  cases node with
  | taggedTemplate => exact absurd rfl another
  | _ => rfl

theorem takenBelow_stringLiteral (isString : node.isStringLiteral = true) :
    node.takenBelow = [] := by
  cases node with
  | literal => rw [takenBelow_eq]; rfl
  | _ => cases isString

theorem takenBelow_addition (left right : Node) :
    (Node.binary "+" left right).takenBelow = left.takenBelow ++ right.takenBelow := by
  simp [takenBelow_eq (.binary _ _ _), children, taken]

theorem taken_mapChildren
    (same : node.kind = .taggedTemplate →
      ∀ child ∈ node.children, (change child).segments? = child.segments?) :
    (node.mapChildren change).taken = node.taken := by
  by_cases tagged : node.kind = .taggedTemplate
  · obtain ⟨tag, quasi, rfl⟩ := eq_taggedTemplate_of_kind tagged
    have quasiSame := same tagged quasi (by simp [children])
    simp [mapChildren, children, withChildren, taken, quasiSame]
  · rw [taken_eq_nil tagged, taken_eq_nil (by simpa using tagged)]

theorem taken_taggedTemplates (tree : Node) :
    tree.taggedTemplates.flatMap taken = tree.takenBelow := by
  unfold taggedTemplates takenBelow
  induction tree.postorder with
  | nil => rfl
  | cons node nodes ih =>
      by_cases tagged : node.kind = .taggedTemplate
      · simp [tagged, ih]
      · simp [tagged, ih, taken_eq_nil tagged]

end Node

variable {tree : Node}

theorem Node.ShapedTop.mapChildren {node : Node} {change : Node → Node} (shaped : node.ShapedTop)
    (names : ∀ child ∈ node.children, child.IsName → (change child).IsName)
    (templates : node.kind = .taggedTemplate →
      ∀ child ∈ node.children, (change child).segments? = child.segments?) :
    (node.mapChildren change).ShapedTop := by
  cases node with
  | templateLiteral quasis expressions =>
      simpa [Node.mapChildren, Node.withChildren, Node.children, Node.ShapedTop] using shaped
  | taggedTemplate tag quasi =>
      have quasiSame := templates rfl quasi (by simp [Node.children])
      have isTemplate : (change quasi).kind = .templateLiteral := by
        rw [← Node.isSome_segments?, quasiSame, Node.isSome_segments?]
        exact shaped
      exact isTemplate
  | member object property computed optional =>
      intro named
      exact names property (by simp [Node.children]) (shaped named)
  | returnStatement argument => cases argument <;> trivial
  | variableDeclarator id init => cases init <;> trivial
  | _ => trivial

theorem shaped_rewrite {rule : Rule} {parent : NodeKind} {before after : Node}
    (rewrites : Rewrites rule parent before after) (shaped : before.Shaped) :
    after.Shaped ∧ after.takenBelow = before.takenBelow := by
  have string : ∀ node : Node, node.isStringLiteral = true → node.Shaped := by
    intro node isString inner contains
    rw [contains.eq_of_leaf (Node.children_of_isStringLiteral isString)]
    cases node with
    | literal => trivial
    | _ => cases isString
  obtain ⟨top, below⟩ := Node.shaped_iff.mp shaped
  cases rewrites with
  | @access _ object key optional =>
      constructor
      · apply Node.shaped_iff.mpr
        simp only [Node.children, List.forall_mem_cons] at below ⊢
        exact ⟨Bool.noConfusion, below.1, string _ rfl, below.2.2⟩
      · simp [Node.takenBelow_eq (.member _ _ _ _), Node.children, Node.taken,
          Node.takenBelow_eq (.identifier _), Node.takenBelow_eq (.literal _ _ _ _)]
  | @template _ quasis expressions _ =>
      have enough : expressions.length ≤ quasis.length := by
        rw [show quasis.length = expressions.length + 1 from top]
        exact Nat.le_succ _
      constructor
      · apply Template.flatten_induction quasis string ?_ below
        intro left right shapedLeft shapedRight
        apply Node.shaped_iff.mpr
        simp [Node.ShapedTop, Node.children, shapedLeft, shapedRight]
      · rw [Template.collect_flatten Node.takenBelow_stringLiteral Node.takenBelow_addition enough,
          Node.takenBelow_eq (.templateLiteral _ _)]
        simp [Node.children, Node.taken]

/-- Names stay names, what a tag takes stays the same template, and a shaped tree stays shaped. -/
theorem placedPreorder_shaped :
    PlacedPreorder fun above before after =>
      (before.IsName → after.IsName) ∧
        (above = some .taggedTemplate → after.segments? = before.segments?) ∧
        (before.Shaped → after.Shaped ∧ after.takenBelow = before.takenBelow) where
  refl _ _ := ⟨id, fun _ => rfl, fun shaped => ⟨shaped, rfl⟩⟩
  trans := by
    rintro above before middle after ⟨names, templates, first⟩ ⟨names', templates', second⟩
    refine ⟨names' ∘ names, fun tagged => (templates' tagged).trans (templates tagged), ?_⟩
    intro shaped
    obtain ⟨shaped, same⟩ := first shaped
    obtain ⟨shaped, same'⟩ := second shaped
    exact ⟨shaped, same'.trans same⟩
  rewrite := by
    intro rule parent before after rewrites
    refine ⟨?_, ?_, shaped_rewrite rewrites⟩
    · cases rewrites <;> simp [Node.IsName, Node.kind]
    · intro tagged
      cases rewrites with
      | access => rfl
      | template untagged => exact absurd (Option.some.inj tagged) untagged
  inside := by
    intro above node change each
    have templates (tagged : node.kind = .taggedTemplate) :
        ∀ child ∈ node.children, (change child).segments? = child.segments? :=
      fun child isChild => (each child isChild).2.1 (congrArg some tagged)
    refine ⟨by simp [Node.IsName], fun _ => by simp, fun shaped => ?_⟩
    obtain ⟨top, below⟩ := Node.shaped_iff.mp shaped
    have inner (child : Node) (isChild : child ∈ node.children) :=
      (each child isChild).2.2 (below child isChild)
    constructor
    · apply Node.shaped_iff.mpr
      refine ⟨top.mapChildren (fun child isChild => (each child isChild).1) templates, ?_⟩
      rw [Node.children_mapChildren]
      exact List.forall_mem_map.mpr fun child isChild => (inner child isChild).1
    · rw [Node.takenBelow_eq, Node.takenBelow_eq node, Node.children_mapChildren, List.flatMap_map,
        Node.taken_mapChildren templates]
      congr 1
      exact List.flatMap_congr fun child isChild => (inner child isChild).2

theorem sameSegments_of_taken {nodes others : List Node}
    (tagged : ∀ node ∈ nodes, node.kind = .taggedTemplate ∧ node.ShapedTop)
    (tagged' : ∀ node ∈ others, node.kind = .taggedTemplate ∧ node.ShapedTop)
    (same : others.flatMap Node.taken = nodes.flatMap Node.taken) :
    List.Forall₂ Node.SameSegments nodes others := by
  have template : ∀ node : Node, node.kind = .taggedTemplate ∧ node.ShapedTop →
      ∃ tag quasis expressions,
        node = .taggedTemplate tag (.templateLiteral quasis expressions) := by
    rintro node ⟨isTagged, shaped⟩
    obtain ⟨tag, quasi, rfl⟩ := Node.eq_taggedTemplate_of_kind isTagged
    cases quasi with
    | templateLiteral quasis expressions => exact ⟨tag, quasis, expressions, rfl⟩
    | _ => cases shaped
  induction nodes generalizing others with
  | nil =>
      cases others with
      | nil => exact .nil
      | cons other others =>
          obtain ⟨tag, quasis, expressions, rfl⟩ :=
            template other (tagged' other List.mem_cons_self)
          cases same
  | cons node nodes ih =>
      obtain ⟨tag, quasis, expressions, rfl⟩ := template node (tagged node List.mem_cons_self)
      cases others with
      | nil => cases same
      | cons other others =>
          obtain ⟨tag', quasis', expressions', rfl⟩ :=
            template other (tagged' other List.mem_cons_self)
          simp only [List.flatMap_cons, Node.taken, Node.segments?, List.cons_append,
            List.nil_append, List.cons.injEq, Option.some.injEq, Prod.mk.injEq] at same
          obtain ⟨⟨rfl, lengths⟩, same⟩ := same
          refine .cons (.intro lengths) (ih ?_ ?_ same)
          · exact fun node member => tagged node (List.mem_cons_of_mem _ member)
          · exact fun node member => tagged' node (List.mem_cons_of_mem _ member)

theorem Node.Shaped.taggedTemplates (shaped : tree.Shaped) :
    ∀ node ∈ tree.taggedTemplates, node.kind = .taggedTemplate ∧ node.ShapedTop := by
  intro node member
  obtain ⟨within, tagged⟩ := List.mem_filter.mp member
  exact ⟨of_decide_eq_true tagged, shaped node (Node.mem_postorder.mp within)⟩

/-- A run keeps the shape, and of each tagged template in its turn the segments and the number of
substitutions. -/
theorem runStages_shaped (shaped : tree.Shaped) (rules : List Rule) (maxDepth : Nat)
    (stages : List Stage) :
    let result := ((Pipeline.ofRules rules maxDepth).runStages stages tree).1
    result.Shaped ∧
      List.Forall₂ Node.SameSegments tree.taggedTemplates result.taggedTemplates := by
  intro result
  obtain ⟨_, _, kept⟩ := placedPreorder_shaped.runStages rules maxDepth stages tree
  obtain ⟨shapedResult, same⟩ := kept shaped
  refine ⟨shapedResult, ?_⟩
  apply sameSegments_of_taken shaped.taggedTemplates shapedResult.taggedTemplates
  rw [Node.taken_taggedTemplates, Node.taken_taggedTemplates]
  exact same

/-- A tag around another one, inside a template and with templates inside. -/
theorem runStages_shaped_nested :
    let inner (key : Node) (y : Node) := Node.taggedTemplate key (.template ["x", ""] [y])
    let outer (key : Node) (y : Node) :=
      Node.taggedTemplate (.identifier "t") (.template ["p", "q"] [inner key y])
    let name := Node.access (.identifier "o") (.identifier "k") false
    let key := Node.access (.identifier "o") (.stringLiteral "k") true
    let root := Node.expressionStatement (.template ["", "b"] [outer name (.template ["y"] [])])
    let result := Node.expressionStatement
      (.binary "+" (outer key (.stringLiteral "y")) (.stringLiteral "b"))
    root.Shaped ∧ ((Pipeline.ofRules Rule.all 9).runStages Stage.all root).1 = result ∧
      result.Shaped ∧ List.Forall₂ Node.SameSegments root.taggedTemplates result.taggedTemplates ∧
      root.taggedTemplates = [inner name (.template ["y"] []), outer name (.template ["y"] [])] ∧
      result.taggedTemplates =
        [inner key (.stringLiteral "y"), outer key (.stringLiteral "y")] := by
  intro inner outer name key root result
  have shaped : root.Shaped := by
    simp [root, outer, inner, name, Node.Shaped, ← Node.mem_postorder, Node.postorder_eq,
      Node.children, Node.template, Node.access, TemplateElement.ofTexts, Node.ShapedTop,
      Node.IsName, Node.kind]
  have lowered : ((Pipeline.ofRules Rule.all 9).runStages Stage.all root).1 = result := rfl
  obtain ⟨shapedResult, same⟩ := runStages_shaped shaped Rule.all 9 Stage.all
  rw [lowered] at shapedResult same
  have tagged : root.taggedTemplates =
      [inner name (.template ["y"] []), outer name (.template ["y"] [])] := by
    simp [root, outer, inner, name, Node.taggedTemplates, Node.postorder_eq, Node.children,
      Node.template, Node.access, TemplateElement.ofTexts, Node.kind]
  have tagged' : result.taggedTemplates =
      [inner key (.stringLiteral "y"), outer key (.stringLiteral "y")] := by
    simp [result, outer, inner, key, Node.taggedTemplates, Node.postorder_eq, Node.children,
      Node.template, Node.access, Node.stringLiteral, Node.literalOf, TemplateElement.ofTexts,
      Node.kind]
  exact ⟨shaped, lowered, shapedResult, same, tagged, tagged'⟩

end EstreeLowering
