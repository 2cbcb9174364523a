import EstreeLowering.Proofs.Node.Position
import EstreeLowering.Walk.Schedule

namespace EstreeLowering

/-- A rule turns the first node, under a parent of that kind, into the second one. -/
inductive Rewrites : Rule → NodeKind → Node → Node → Prop
  | access {parent object key optional} :
      Rewrites .memberAccess parent (.member object (.identifier key) false optional)
        (.member object (.literal (.string key) none none none) true optional)
  | template {parent quasis expressions} (untagged : parent ≠ .taggedTemplate) :
      Rewrites .templateLiteral parent (.templateLiteral quasis expressions)
        (Template.flatten quasis expressions)

def Rewritable (rule : Rule) (parent : NodeKind) (node : Node) : Prop :=
  ∃ result, Rewrites rule parent node result

def KeptBy (rule : Rule) (above : Option NodeKind) (node : Node) : Prop :=
  ∀ parent, above = some parent → ¬ Rewritable rule parent node

/-- Nothing in the tree at a depth below `limit` can be rewritten by one of the rules. -/
def Settled (rules : List Rule) (limit : Nat) (above : Option NodeKind) (tree : Node) : Prop :=
  ∀ depth parent node, tree.Occurs above depth (some parent) node → depth < limit →
    ∀ rule ∈ rules, ¬ Rewritable rule parent node

theorem rewritable_access_iff {parent : NodeKind} {node : Node} :
    Rewritable .memberAccess parent node ↔
      ∃ object key optional, node = .member object (.identifier key) false optional := by
  constructor
  · intro rewritable
    obtain ⟨result, rewrites⟩ := rewritable
    cases rewrites with
    | access => exact ⟨_, _, _, rfl⟩
  · intro isAccess
    obtain ⟨object, key, optional, rfl⟩ := isAccess
    exact ⟨_, .access⟩

theorem rewritable_template_iff {parent : NodeKind} {node : Node} :
    Rewritable .templateLiteral parent node ↔
      parent ≠ .taggedTemplate ∧
        ∃ quasis expressions, node = .templateLiteral quasis expressions := by
  constructor
  · intro rewritable
    obtain ⟨result, rewrites⟩ := rewritable
    cases rewrites with
    | template untagged => exact ⟨untagged, _, _, rfl⟩
  · intro isTemplate
    obtain ⟨untagged, quasis, expressions, rfl⟩ := isTemplate
    exact ⟨_, .template untagged⟩

section

variable {above : Option NodeKind} {node other : Node}

theorem rewritable_template_iff_kind {parent : NodeKind} :
    Rewritable .templateLiteral parent node ↔
      parent ≠ .taggedTemplate ∧ node.kind = .templateLiteral := by
  rw [rewritable_template_iff]
  cases node <;> simp [Node.kind]

/-- Whether a template is flattened depends on its kind and that of its parent only. -/
theorem keptBy_template_congr (same : node.kind = other.kind) :
    KeptBy .templateLiteral above node ↔ KeptBy .templateLiteral above other := by
  simp [KeptBy, rewritable_template_iff_kind, same]

theorem exists_rewrites_of_not_keptBy {rule : Rule} (rewritten : ¬ KeptBy rule above node) :
    ∃ parent result, above = some parent ∧ Rewrites rule parent node result := by
  simp only [KeptBy, Rewritable, not_forall, not_not] at rewritten
  obtain ⟨parent, inParent, result, rewrites⟩ := rewritten
  exact ⟨parent, result, inParent, rewrites⟩

theorem exists_template_of_not_keptBy (rewritten : ¬ KeptBy .templateLiteral above node) :
    ∃ parent quasis expressions, above = some parent ∧ parent ≠ .taggedTemplate ∧
      node = .templateLiteral quasis expressions := by
  obtain ⟨parent, result, inParent, rewrites⟩ := exists_rewrites_of_not_keptBy rewritten
  cases rewrites with
  | template untagged => exact ⟨parent, _, _, inParent, untagged, rfl⟩

/-- No access becomes rewritable through its children unless one of them becomes an identifier. -/
theorem keptBy_mapChildren {change : Node → Node}
    (reflects : ∀ child name, change child = .identifier name → child = .identifier name)
    (kept : KeptBy .memberAccess above node) :
    KeptBy .memberAccess above (node.mapChildren change) := by
  intro parent inParent rewritable
  obtain ⟨object, key, optional, access⟩ := rewritable_access_iff.mp rewritable
  obtain ⟨object', property, same, _, keyed⟩ := Node.eq_member_of_mapChildren access
  obtain rfl := reflects _ _ keyed
  exact kept parent inParent (rewritable_access_iff.mpr ⟨object', key, optional, same⟩)

end

section

variable {rules : List Rule} {limit : Nat} {above : Option NodeKind} {tree : Node}

theorem settled_zero : Settled rules 0 above tree := by
  intro depth parent node _ within
  exact absurd within (Nat.not_lt_zero depth)

theorem settled_succ_iff :
    Settled rules (limit + 1) above tree ↔
      (∀ rule ∈ rules, KeptBy rule above tree) ∧
        ∀ child ∈ tree.children, Settled rules limit (some tree.kind) child := by
  constructor
  · intro settled
    refine ⟨?_, ?_⟩
    · intro rule member parent inParent
      subst inParent
      exact settled 0 parent tree .here (Nat.succ_pos limit) rule member
    · intro child isChild depth parent node within shallow
      exact settled (depth + 1) parent node (.inside (Node.mem_children.mp isChild) within)
        (Nat.succ_lt_succ shallow)
  · intro both depth parent node occurs shallow rule member
    obtain ⟨kept, settled⟩ := both
    cases occurs with
    | here => exact kept rule member parent rfl
    | inside part within =>
        exact settled _ (Node.mem_children.mpr part) _ _ _ within (Nat.lt_of_succ_lt_succ shallow)
          rule member

theorem Settled.mono {fewer : List Rule} {less : Nat} (settled : Settled rules limit above tree)
    (subset : ∀ rule ∈ fewer, rule ∈ rules) (lower : less ≤ limit) :
    Settled fewer less above tree := by
  intro depth parent node occurs shallow rule member
  exact settled depth parent node occurs (Nat.lt_of_lt_of_le shallow lower) rule
    (subset rule member)

end

def HookResult.outcome (result : HookResult) : Node :=
  result.replacement.getD result.node

@[simp] theorem HookResult.outcome_keep (node : Node) : (HookResult.keep node).outcome = node :=
  rfl

@[simp] theorem HookResult.replacement_keep (node : Node) :
    (HookResult.keep node).replacement = none := rfl

section

variable {parent : NodeKind} {above : Option NodeKind} {node result : Node}

theorem outcome_enter (rewrites : Rewrites .memberAccess parent node result) :
    (MemberAccess.enter node (some parent)).outcome = result := by
  cases rewrites with
  | access => rfl

theorem convert?_of_not_rewritable (kept : ¬ Rewritable .memberAccess parent node) :
    MemberAccess.convert? node = none := by
  unfold MemberAccess.convert?
  split
  · exact absurd ⟨_, .access⟩ kept
  · rfl

theorem enter_of_keptBy (kept : KeptBy .memberAccess above node) :
    MemberAccess.enter node above = .keep node := by
  cases above with
  | none => rfl
  | some parent =>
      unfold MemberAccess.enter
      rw [convert?_of_not_rewritable (kept parent rfl)]

theorem replacement_enter (node : Node) (above : Option NodeKind) :
    (MemberAccess.enter node above).replacement = none := by
  unfold MemberAccess.enter
  split <;> rfl

theorem replacement_leave (rewrites : Rewrites .templateLiteral parent node result) :
    (Template.leave node (some parent)).replacement = some result := by
  cases rewrites with
  | template untagged =>
      cases parent with
      | taggedTemplate => exact absurd rfl untagged
      | _ => rfl

theorem leave_of_keptBy (kept : KeptBy .templateLiteral above node) :
    Template.leave node above = .keep node := by
  cases above with
  | none => rfl
  | some parent =>
      by_cases tagged : parent = .taggedTemplate
      · subst tagged
        rfl
      · cases node with
        | templateLiteral => exact absurd ⟨_, .template tagged⟩ (kept parent rfl)
        | _ => cases parent <;> rfl

end

end EstreeLowering
