import EstreeLowering.Proofs.Walk.Lowering

/-!
The counts of a walk, read off the tree that the walk begins with.

The counters go up while the tree under them changes. But converting an access puts a literal where
a name stood and leaves every kind above it alone, and flattening a template happens after all
below it was counted. So a walk counts the nodes that stand above its limit in the tree as it was,
and among them the templates, each under the parent that it had there.
-/

namespace EstreeLowering

open Node (Site)

variable {rules : List Rule} {above : Option NodeKind} {parent : NodeKind} {root node : Node}
  {depth depthLeft maxDepth : Nat}

/-- A template literal that stands in another node, which is no tag. -/
def Node.Site.IsUntaggedTemplate (site : Site) : Prop :=
  site.node.kind = .templateLiteral ∧ site.parent ≠ none ∧ site.parent ≠ some .taggedTemplate

instance (site : Site) : Decidable site.IsUntaggedTemplate :=
  inferInstanceAs (Decidable (_ ∧ _))

theorem isUntaggedTemplate_iff :
    Site.IsUntaggedTemplate ⟨depth, above, node⟩ ↔ ¬ KeptBy .templateLiteral above node := by
  simp only [Site.IsUntaggedTemplate, KeptBy, rewritable_template_iff_kind]
  cases above with
  | none => simp
  | some parent => simp [and_comm]

theorem not_isUntaggedTemplate (another : node.kind ≠ .templateLiteral) :
    ¬ Site.IsUntaggedTemplate ⟨depth, above, node⟩ :=
  fun untagged => another untagged.1

/-- A replacement is made where an untagged template stood, whatever became of its children. -/
theorem replacements_walked (rules : List Rule) (depthLeft depth : Nat) (above : Option NodeKind)
    (node : Node) :
    replacements rules above (walked rules depthLeft above node) =
      if .templateLiteral ∈ rules ∧ Site.IsUntaggedTemplate ⟨depth, above, node⟩ then 1 else 0 := by
  have sameKind : KeptBy .templateLiteral above (walked rules depthLeft above node) ↔
      KeptBy .templateLiteral above node :=
    keptBy_template_congr (kind_walked rules depthLeft above node)
  rcases exited_cases rules above (walked rules depthLeft above node) with
    ⟨_, uncounted, kept⟩ | ⟨parent, rfl, member, rewrites, counted⟩
  · rw [uncounted, if_neg]
    rintro ⟨member, untagged⟩
    exact isUntaggedTemplate_iff.mp untagged (sameKind.mp (kept member))
  · rw [counted, if_pos]
    refine ⟨member, isUntaggedTemplate_iff.mpr fun kept => ?_⟩
    exact sameKind.mpr kept parent rfl ⟨_, rewrites⟩

/-- Entering a node changes nothing that is counted below it, unless a name and a string literal
count differently. -/
theorem countP_sites_entered (rules : List Rule) (above : Option NodeKind) {counted : Site → Bool}
    (alike : ∀ key, counted ⟨depth, some parent, .stringLiteral key⟩ =
      counted ⟨depth, some parent, .identifier key⟩) :
    ((entered rules above node).children.flatMap (Node.sitesFrom (some parent) depth)).countP
        counted =
      (node.children.flatMap (Node.sitesFrom (some parent) depth)).countP counted := by
  rcases entered_eq_or rules above node with same | ⟨object, key, optional, rfl, same⟩
  · rw [same]
  · have leaves : ((Node.stringLiteral key).sitesFrom (some parent) depth).countP counted =
        ((Node.identifier key).sitesFrom (some parent) depth).countP counted := by
      have literal : (Node.stringLiteral key).children = [] := rfl
      have identifier : (Node.identifier key).children = [] := rfl
      simp only [Node.sitesFrom_eq, literal, identifier, List.flatMap_nil, List.countP_singleton,
        alike]
    simp only [same, Node.children, List.flatMap_cons, List.flatMap_nil, List.append_nil,
      List.countP_append]
    exact congrArg _ leaves

theorem countP_sites_above (counted : Site → Bool)
    (shallow : ∀ site, counted site = true → site.depth < depth) (above : Option NodeKind)
    (node : Node) : (node.sitesFrom above depth).countP counted = 0 := by
  rw [List.countP_eq_zero]
  intro site member isCounted
  obtain ⟨deeper, same, _⟩ := Node.mem_sitesFrom.mp member
  have higher := shallow site isCounted
  omega

/-- What a walk counts above its limit, when it starts `depth` levels deep. -/
theorem visited_tallied (rules : List Rule) (depthLeft depth : Nat) (above : Option NodeKind)
    (node : Node) :
    (tallied rules depthLeft above node).visited =
      (node.sitesFrom above depth).countP fun site => site.depth < depth + depthLeft := by
  induction depthLeft generalizing depth above node with
  | zero =>
      symm
      apply countP_sites_above
      simp
  | succ depthLeft ih =>
      have limit : depth + (depthLeft + 1) = depth + 1 + depthLeft := by omega
      -- The walk counts the children that entering leaves, which count like those before it.
      rw [Node.sitesFrom_eq, List.countP_cons_of_pos (by simp), limit,
        ← kind_entered rules above node, ← countP_sites_entered rules above (fun _ => rfl),
        List.countP_flatMap]
      simp only [tallied, Tally.add, Tally.visited_sum, List.map_map, Nat.add_zero,
        Function.comp_def, ih (depth + 1)]
      exact Nat.add_comm 1 _

theorem replaced_tallied (rules : List Rule) (depthLeft depth : Nat) (above : Option NodeKind)
    (node : Node) :
    (tallied rules depthLeft above node).replaced =
      if .templateLiteral ∈ rules then (node.sitesFrom above depth).countP fun site =>
        site.depth < depth + depthLeft ∧ site.IsUntaggedTemplate
      else 0 := by
  induction depthLeft generalizing depth above node with
  | zero =>
      have uncounted : (node.sitesFrom above depth).countP (fun site =>
          site.depth < depth + 0 ∧ site.IsUntaggedTemplate) = 0 := by
        apply countP_sites_above
        intro site counted
        exact (of_decide_eq_true counted).1
      rw [uncounted, ite_self]
      rfl
  | succ depthLeft ih =>
      simp only [tallied, Tally.add, Tally.replaced_sum, List.map_map, Nat.zero_add,
        Function.comp_def, ih (depth + 1), replacements_walked rules depthLeft depth]
      by_cases member : .templateLiteral ∈ rules
      · have limit : depth + (depthLeft + 1) = depth + 1 + depthLeft := by omega
        have here : depth < depth + 1 + depthLeft := by omega
        have alike : ∀ key, decide (depth + 1 < depth + 1 + depthLeft ∧
              Site.IsUntaggedTemplate ⟨depth + 1, some node.kind, .stringLiteral key⟩) =
            decide (depth + 1 < depth + 1 + depthLeft ∧
              Site.IsUntaggedTemplate ⟨depth + 1, some node.kind, .identifier key⟩) := by
          intro key
          have literal : (Node.stringLiteral key).kind ≠ .templateLiteral := by
            simp [Node.stringLiteral, Node.literalOf, Node.kind]
          have identifier : (Node.identifier key).kind ≠ .templateLiteral := by simp [Node.kind]
          simp only [not_isUntaggedTemplate literal, not_isUntaggedTemplate identifier]
        simp only [member, true_and, if_true]
        rw [Node.sitesFrom_eq, List.countP_cons, limit,
          ← countP_sites_entered rules above alike, List.countP_flatMap]
        simp [Function.comp_def, here]
      · simp [member]

/-- The counts of a walk of the converting stage: the nodes above its limit, and the untagged
templates among them but for the root, all in the tree as it was. -/
theorem runStage_converting_tally (registered : rules ≠ []) (maxDepth : Nat) (root : Node) :
    ((Pipeline.ofRules rules maxDepth).runStage .converting root).2.tally =
      { visited := root.sites.countP fun site => site.depth < maxDepth
        replaced := if .templateLiteral ∈ rules then root.sites.countP fun site =>
            0 < site.depth ∧ site.depth < maxDepth ∧ site.node.kind = .templateLiteral ∧
              site.parent ≠ some .taggedTemplate
          else 0 } := by
  have tally := (Pipeline.runStage_of_rules maxDepth root registered).2
  have visited := visited_tallied rules.eraseDups maxDepth 0 none root
  have replaced := replaced_tallied rules.eraseDups maxDepth 0 none root
  have alike : (root.sitesFrom none 0).countP
        (fun site => site.depth < 0 + maxDepth ∧ site.IsUntaggedTemplate) =
      root.sites.countP fun site => 0 < site.depth ∧ site.depth < maxDepth ∧
        site.node.kind = .templateLiteral ∧ site.parent ≠ some .taggedTemplate := by
    apply List.countP_congr
    intro site member
    have root := (Node.mem_sites.mp member).parent_eq_none_iff
    simp only [decide_eq_true_eq, Site.IsUntaggedTemplate, ne_eq, root, Nat.zero_add,
      Nat.pos_iff_ne_zero]
    tauto
  rw [alike] at replaced
  simp only [List.mem_eraseDups] at replaced
  rw [Nat.zero_add] at visited
  rw [tally, ← replaced]
  exact congrArg (Tally.mk · _) visited

/-- Of three templates one has a tag and one stands at the limit. -/
theorem runStage_converting_tally_tagged :
    [Rule.templateLiteral] ≠ [] ∧
      ((Pipeline.ofRules [.templateLiteral] 4).runStage .converting (.programOf
        [.expressionStatement (.taggedTemplate (.identifier "t")
          (.template ["", ""] [.template ["a"] []])), .template ["b"] []])).2.tally = ⟨6, 1⟩ := by
  have registered : [Rule.templateLiteral] ≠ [] := List.cons_ne_nil _ _
  refine ⟨registered, (runStage_converting_tally registered 4 _).trans ?_⟩
  simp [Node.sites, Node.sitesFrom_eq, Node.children, Node.kind, Node.programOf, Node.template]

end EstreeLowering
