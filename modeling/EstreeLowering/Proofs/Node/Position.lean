import EstreeLowering.Proofs.Node.Slots

/-!
Positions in trees.

`PartOf` says from the fields of each kind what stands right below a node; the slots hold exactly
that, in some order. A position is then either described, by its depth and the kind of the parent,
or given by the indices of the slots that lead to it. Both are relative to what the tree stands in:
`above` is the kind of that node, and none for a whole tree, whose root has no parent.
-/

namespace EstreeLowering.Node

/-- The first node stands right below the second one. -/
inductive PartOf : Node → Node → Prop
  | programStatement {body sourceType child} (member : child ∈ body) :
      PartOf child (.program body sourceType)
  | expression {child} : PartOf child (.expressionStatement child)
  | blockStatement {body child} (member : child ∈ body) : PartOf child (.blockStatement body)
  | returned {child} : PartOf child (.returnStatement (some child))
  | declarator {declarations kind child} (member : child ∈ declarations) :
      PartOf child (.variableDeclaration declarations kind)
  | declared {init child} : PartOf child (.variableDeclarator child init)
  | initial {id child} : PartOf child (.variableDeclarator id (some child))
  | substitution {quasis expressions child} (member : child ∈ expressions) :
      PartOf child (.templateLiteral quasis expressions)
  | tag {quasi child} : PartOf child (.taggedTemplate child quasi)
  | quasi {tag child} : PartOf child (.taggedTemplate tag child)
  | object {property computed optional child} :
      PartOf child (.member child property computed optional)
  | property {object computed optional child} :
      PartOf child (.member object child computed optional)
  | leftOperand {operator right child} : PartOf child (.binary operator child right)
  | rightOperand {operator left child} : PartOf child (.binary operator left child)
  | target {operator right child} : PartOf child (.assignment operator child right)
  | assigned {operator left child} : PartOf child (.assignment operator left child)
  | callee {arguments optional child} : PartOf child (.call child arguments optional)
  | argument {callee arguments optional child} (member : child ∈ arguments) :
      PartOf child (.call callee arguments optional)
  | element {elements child} (member : some child ∈ elements) : PartOf child (.array elements)
  | test {consequent alternate child} : PartOf child (.conditional child consequent alternate)
  | consequent {test alternate child} : PartOf child (.conditional test child alternate)
  | alternate {test consequent child} : PartOf child (.conditional test consequent child)
  | fieldNode {typeName fields key child} (member : (key, .node child) ∈ fields) :
      PartOf child (.other typeName fields)
  | fieldItem {typeName fields key items child} (member : (key, .nodes items) ∈ fields)
      (item : some child ∈ items) : PartOf child (.other typeName fields)

theorem mem_filterMap_items {items : List (Option Node)} {child : Node} :
    child ∈ items.filterMap id ↔ some child ∈ items := by
  simp [List.mem_filterMap]

/-- The slots of a node hold what stands right below it, and nothing else. -/
theorem mem_children {node child : Node} : child ∈ node.children ↔ PartOf child node := by
  constructor
  · intro isChild
    cases node with
    | program => exact .programStatement isChild
    | blockStatement => exact .blockStatement isChild
    | variableDeclaration => exact .declarator isChild
    | templateLiteral => exact .substitution isChild
    | identifier | privateIdentifier | literal => cases isChild
    | expressionStatement =>
        obtain rfl := List.mem_singleton.mp isChild
        exact .expression
    | returnStatement argument =>
        obtain rfl := Option.mem_toList.mp isChild
        exact .returned
    | variableDeclarator id init =>
        rcases List.mem_cons.mp isChild with rfl | initial
        · exact .declared
        · obtain rfl := Option.mem_toList.mp initial
          exact .initial
    | taggedTemplate | member | binary | assignment =>
        simp only [children, List.mem_cons, List.not_mem_nil, or_false] at isChild
        rcases isChild with rfl | rfl <;> constructor
    | conditional =>
        simp only [children, List.mem_cons, List.not_mem_nil, or_false] at isChild
        rcases isChild with rfl | rfl | rfl <;> constructor
    | call =>
        rcases List.mem_cons.mp isChild with rfl | member
        · exact .callee
        · exact .argument member
    | array => exact .element (mem_filterMap_items.mp isChild)
    | other typeName fields =>
        obtain ⟨⟨key, field⟩, member, within⟩ := List.mem_flatMap.mp isChild
        cases field with
        | node held =>
            obtain rfl := List.mem_singleton.mp within
            exact .fieldNode member
        | nodes items => exact .fieldItem member (mem_filterMap_items.mp within)
        | value => cases within
  · intro part
    cases part with
    | element member => exact mem_filterMap_items.mpr member
    | fieldNode member => exact List.mem_flatMap.mpr ⟨_, member, List.mem_singleton.mpr rfl⟩
    | fieldItem member item =>
        exact List.mem_flatMap.mpr ⟨_, member, mem_filterMap_items.mpr item⟩
    | _ => simp_all [children]

/-- A node stands in a tree, `depth` levels below its top, under a parent of that kind. -/
inductive Occurs : Node → Option NodeKind → Nat → Option NodeKind → Node → Prop
  | here {tree above} : Occurs tree above 0 above tree
  | inside {tree above child depth kind node} (part : PartOf child tree)
      (within : Occurs child (some tree.kind) depth kind node) :
      Occurs tree above (depth + 1) kind node

section

variable {tree node inner : Node} {above kind : Option NodeKind} {limit depth deeper : Nat}

/-- What a tree stands in is the parent of its root alone. -/
theorem Occurs.reparent (occurs : tree.Occurs above depth kind node)
    (elsewhere : Option NodeKind) : ∃ kind', tree.Occurs elsewhere depth kind' node := by
  cases occurs with
  | here => exact ⟨elsewhere, .here⟩
  | inside part within => exact ⟨kind, .inside part within⟩

theorem Occurs.trans {kind' : Option NodeKind} (outer : tree.Occurs above depth kind node)
    (occurs : node.Occurs kind deeper kind' inner) :
    tree.Occurs above (depth + deeper) kind' inner := by
  induction outer with
  | here => simpa using occurs
  | inside part _ ih =>
      rw [Nat.add_right_comm]
      exact .inside part (ih occurs)

theorem Occurs.parent_ne_none {parent : NodeKind}
    (occurs : tree.Occurs (some parent) depth kind node) : kind ≠ none := by
  generalize same : some parent = above at occurs
  induction occurs generalizing parent with
  | here => rw [← same]; exact Option.some_ne_none parent
  | inside _ _ ih => exact ih rfl

/-- Of the nodes of a whole tree the root alone has no parent. -/
theorem Occurs.parent_eq_none_iff (occurs : tree.Occurs none depth kind node) :
    kind = none ↔ depth = 0 := by
  cases occurs with
  | here => simp
  | inside _ within => simp [within.parent_ne_none]

theorem Occurs.exists_child (occurs : tree.Occurs above (depth + 1) kind node) :
    ∃ child ∈ tree.children, child.Occurs (some tree.kind) depth kind node := by
  cases occurs with
  | inside part within => exact ⟨_, mem_children.mpr part, within⟩

def Contains (tree node : Node) : Prop :=
  ∃ above depth kind, tree.Occurs above depth kind node

theorem Occurs.contains (occurs : tree.Occurs above depth kind node) : tree.Contains node :=
  ⟨above, depth, kind, occurs⟩

theorem Contains.trans (outer : tree.Contains node) (within : node.Contains inner) :
    tree.Contains inner := by
  obtain ⟨above, depth, kind, occurs⟩ := outer
  obtain ⟨_, deeper, _, within⟩ := within
  obtain ⟨kind', within⟩ := within.reparent kind
  exact (occurs.trans within).contains

theorem contains_self : tree.Contains tree :=
  ⟨none, 0, none, .here⟩

theorem contains_child (isChild : inner ∈ tree.children) : tree.Contains inner :=
  ⟨none, 1, some tree.kind, .inside (mem_children.mp isChild) .here⟩

/-- Every node of the tree stands less than `limit` levels below its top. -/
def Within (limit : Nat) (tree : Node) : Prop :=
  ∀ above depth kind node, tree.Occurs above depth kind node → depth < limit

theorem not_within_zero : ¬ tree.Within 0 :=
  fun within => Nat.not_lt_zero 0 (within none 0 none tree .here)

theorem within_succ_iff :
    tree.Within (limit + 1) ↔ ∀ child ∈ tree.children, child.Within limit := by
  constructor
  · intro within child isChild above depth kind node occurs
    obtain ⟨elsewhere, occurs⟩ := occurs.reparent (some tree.kind)
    exact Nat.lt_of_succ_lt_succ (within none _ _ _ (.inside (mem_children.mp isChild) occurs))
  · intro within above depth kind node occurs
    cases occurs with
    | here => exact Nat.succ_pos limit
    | inside part occurs =>
        exact Nat.succ_lt_succ (within _ (mem_children.mpr part) _ _ _ _ occurs)

theorem Within.of_occurs (within : tree.Within (limit + 1))
    (occurs : tree.Occurs above (depth + 1) kind node) : node.Within limit := by
  intro elsewhere deeper parent inner inside
  obtain ⟨parent', inside⟩ := inside.reparent kind
  have shallow := within _ _ _ _ (occurs.trans inside)
  omega

theorem contains_iff :
    tree.Contains node ↔ node = tree ∨ ∃ child ∈ tree.children, child.Contains node := by
  constructor
  · rintro ⟨above, depth, kind, occurs⟩
    cases occurs with
    | here => exact .inl rfl
    | inside part within => exact .inr ⟨_, mem_children.mpr part, within.contains⟩
  · rintro (rfl | ⟨child, isChild, within⟩)
    · exact contains_self
    · exact (contains_child isChild).trans within

theorem Contains.eq_of_leaf (contains : tree.Contains node) (leaf : tree.children = []) :
    node = tree := by
  simpa [leaf] using contains_iff.mp contains

theorem children_of_isStringLiteral (isString : node.isStringLiteral = true) :
    node.children = [] := by
  cases node with
  | literal => rfl
  | _ => cases isString

theorem within_of_isStringLiteral (isString : node.isStringLiteral = true) :
    node.Within (limit + 1) := by
  simp [within_succ_iff, children_of_isStringLiteral isString]

end

theorem forall_contains_iff {tree : Node} {P : Node → Prop} :
    (∀ node, tree.Contains node → P node) ↔
      P tree ∧ ∀ child ∈ tree.children, ∀ node, child.Contains node → P node := by
  constructor
  · intro all
    exact ⟨all tree contains_self, fun child isChild node within =>
      all node ((contains_child isChild).trans within)⟩
  · rintro ⟨top, below⟩ node contains
    rcases contains_iff.mp contains with rfl | ⟨child, isChild, within⟩
    · exact top
    · exact below child isChild node within

/-- The nodes of the tree, each behind those below it. -/
def postorder (tree : Node) : List Node :=
  (tree.children.attach.flatMap fun ⟨child, _⟩ => child.postorder) ++ [tree]
termination_by sizeOf tree
decreasing_by exact sizeOf_child ‹_›

theorem postorder_eq (tree : Node) :
    tree.postorder = tree.children.flatMap postorder ++ [tree] := by
  rw [postorder]
  simp

theorem mem_postorder {tree node : Node} : node ∈ tree.postorder ↔ tree.Contains node := by
  rw [postorder_eq, contains_iff, List.mem_append, List.mem_flatMap, List.mem_singleton, or_comm]
  refine or_congr_right (exists_congr fun child => and_congr_right fun isChild => ?_)
  exact mem_postorder
termination_by sizeOf tree
decreasing_by exact sizeOf_child isChild

/-- A node where it stands in a tree: how deep, and under a parent of which kind. -/
structure Site where
  depth : Nat
  parent : Option NodeKind
  node : Node

/-- The nodes of the tree where they stand, each before those below it. The tree itself stands at
`depth`, in a node of kind `above`. -/
def sitesFrom (above : Option NodeKind) (depth : Nat) (tree : Node) : List Site :=
  ⟨depth, above, tree⟩ :: tree.children.attach.flatMap fun ⟨child, _⟩ =>
    child.sitesFrom (some tree.kind) (depth + 1)
termination_by sizeOf tree
decreasing_by exact sizeOf_child ‹_›

def sites (root : Node) : List Site :=
  root.sitesFrom none 0

theorem sitesFrom_eq (above : Option NodeKind) (depth : Nat) (tree : Node) :
    tree.sitesFrom above depth = ⟨depth, above, tree⟩ ::
      tree.children.flatMap (sitesFrom (some tree.kind) (depth + 1)) := by
  rw [sitesFrom]
  simp

theorem mem_sitesFrom {above : Option NodeKind} {depth : Nat} {tree : Node} {site : Site} :
    site ∈ tree.sitesFrom above depth ↔
      ∃ deeper, site.depth = depth + deeper ∧ tree.Occurs above deeper site.parent site.node := by
  rw [sitesFrom_eq, List.mem_cons, List.mem_flatMap]
  constructor
  · rintro (rfl | ⟨child, isChild, below⟩)
    · exact ⟨0, rfl, .here⟩
    · obtain ⟨deeper, same, occurs⟩ := mem_sitesFrom.mp below
      exact ⟨deeper + 1, by omega, .inside (mem_children.mp isChild) occurs⟩
  · rintro ⟨deeper, same, occurs⟩
    cases deeper with
    | zero =>
        obtain ⟨depth', parent, node⟩ := site
        obtain rfl : depth' = depth := same
        cases occurs with
        | here => exact .inl rfl
    | succ deeper =>
        obtain ⟨child, isChild, within⟩ := occurs.exists_child
        exact .inr ⟨child, isChild, mem_sitesFrom.mpr ⟨deeper, by omega, within⟩⟩
termination_by sizeOf tree
decreasing_by all_goals exact sizeOf_child isChild

theorem mem_sites {root : Node} {site : Site} :
    site ∈ root.sites ↔ root.Occurs none site.depth site.parent site.node := by
  simp [sites, mem_sitesFrom]

theorem within_iff_sites {root : Node} {limit : Nat} :
    root.Within limit ↔ ∀ site ∈ root.sites, site.depth < limit := by
  constructor
  · intro within site member
    exact within none site.depth site.parent site.node (mem_sites.mp member)
  · intro shallow above depth kind node occurs
    obtain ⟨parent, occurs⟩ := occurs.reparent none
    exact shallow ⟨depth, parent, node⟩ (mem_sites.mpr occurs)

/-- The same nodes where they stand, each behind those below it. -/
def postorderSitesFrom (above : Option NodeKind) (depth : Nat) (tree : Node) : List Site :=
  (tree.children.attach.flatMap fun ⟨child, _⟩ =>
    child.postorderSitesFrom (some tree.kind) (depth + 1)) ++ [⟨depth, above, tree⟩]
termination_by sizeOf tree
decreasing_by exact sizeOf_child ‹_›

def postorderSites (root : Node) : List Site :=
  root.postorderSitesFrom none 0

theorem postorderSitesFrom_eq (above : Option NodeKind) (depth : Nat) (tree : Node) :
    tree.postorderSitesFrom above depth =
      tree.children.flatMap (postorderSitesFrom (some tree.kind) (depth + 1)) ++
        [⟨depth, above, tree⟩] := by
  rw [postorderSitesFrom]
  simp

theorem postorderSitesFrom_perm (above : Option NodeKind) (depth : Nat) (tree : Node) :
    (tree.postorderSitesFrom above depth).Perm (tree.sitesFrom above depth) := by
  rw [postorderSitesFrom_eq, sitesFrom_eq]
  refine (List.perm_append_singleton _ _).trans (.cons _ (List.Perm.flatMap_left _ ?_))
  intro child isChild
  exact postorderSitesFrom_perm (some tree.kind) (depth + 1) child
termination_by sizeOf tree
decreasing_by exact sizeOf_child isChild

/-- The node that the slots of a path lead to, and the kind of its parent. The root of a whole tree
has none. -/
def slot? : Node → Option NodeKind → List Nat → Option (NodeKind × Node)
  | tree, above, [] => above.map (·, tree)
  | tree, _, index :: path =>
      tree.children[index]?.bind fun child => child.slot? (some tree.kind) path

/-- The tree with another node where the slots of a path lead. -/
def putAt : Node → List Nat → Node → Node
  | _, [], node => node
  | tree, index :: path, node =>
      match tree.children[index]? with
      | some child => tree.withChildren (tree.children.set index (child.putAt path node))
      | none => tree

section

variable {tree child node : Node} {above : Option NodeKind} {index : Nat} {path : List Nat}

theorem slot?_cons (found : tree.children[index]? = some child) :
    tree.slot? above (index :: path) = child.slot? (some tree.kind) path := by
  rw [slot?, found, Option.bind_some]

theorem putAt_cons (found : tree.children[index]? = some child) :
    tree.putAt (index :: path) node =
      tree.withChildren (tree.children.set index (child.putAt path node)) := by
  rw [putAt, found]

end

end EstreeLowering.Node
