import EstreeLowering.Node.Build
import EstreeLowering.Proofs.Node.Slots

namespace EstreeLowering.Node

/-- The node without its children. Whether an access is by a name or computed does not show. -/
def label : Node → Node
  | .member _ _ _ optional => .member default default false optional
  | node => node.mapChildren fun _ => default

def isInert : Node → Bool
  | .templateLiteral _ _ => true
  | .binary operator _ _ => operator == "+"
  | node => node.isStringLiteral

def ownObservation (node : Node) : List Node :=
  if node.isInert then [] else [node.label]

def observedChildren : Node → List Node
  | .member object (.identifier _) false _ => [object]
  | node => node.children

theorem mem_children_of_observed {node child : Node} (observed : child ∈ node.observedChildren) :
    child ∈ node.children := by
  unfold observedChildren at observed
  split at observed
  · simp_all [children]
  · exact observed

/-- The labels of the nodes that are not inert, in the order in which a traversal leaves them. -/
def observations (node : Node) : List Node :=
  (node.observedChildren.attach.flatMap fun ⟨child, _⟩ => child.observations) ++
    node.ownObservation
termination_by sizeOf node
decreasing_by exact sizeOf_child (mem_children_of_observed ‹_›)

variable {node : Node} {change : Node → Node}

theorem observations_eq (node : Node) :
    node.observations = node.observedChildren.flatMap observations ++ node.ownObservation := by
  rw [observations]
  simp

theorem observations_stringLiteral (isString : node.isStringLiteral = true) :
    node.observations = [] := by
  cases node with
  | literal => simp [observations_eq, observedChildren, children, ownObservation, isInert, isString]
  | _ => cases isString

@[simp] theorem observations_text (text : String) : (stringLiteral text).observations = [] :=
  observations_stringLiteral rfl

@[simp] theorem observations_addition (left right : Node) :
    (Node.binary "+" left right).observations = left.observations ++ right.observations := by
  simp [observations_eq (.binary _ _ _), observedChildren, children, ownObservation, isInert]

theorem observations_template (quasis : List TemplateElement) (expressions : List Node) :
    (Node.templateLiteral quasis expressions).observations = expressions.flatMap observations := by
  simp [observations_eq (.templateLiteral _ _), observedChildren, children, ownObservation, isInert]

/-- An access reads the same whether its key is a name or a string. -/
theorem observations_access (object : Node) (key : String) (optional : Bool) :
    (Node.member object (.stringLiteral key) true optional).observations =
      (Node.member object (.identifier key) false optional).observations := by
  simp [observations_eq (.member _ _ _ _), observedChildren, children, ownObservation, isInert,
    isStringLiteral, stringLiteral?, label]

theorem label_eq (another : node.kind ≠ .member) :
    node.label = node.mapChildren fun _ => default := by
  cases node with
  | member => exact absurd rfl another
  | _ => rfl

theorem observedChildren_eq (another : node.kind ≠ .member) :
    node.observedChildren = node.children := by
  cases node with
  | member => exact absurd rfl another
  | _ => rfl

theorem exists_identifier (isName : node.kind = .identifier) : ∃ name, node = .identifier name := by
  cases node with
  | identifier name => exact ⟨name, rfl⟩
  | _ => cases isName

theorem observedChildren_member {object property : Node} {computed optional : Bool}
    (evaluated : ¬ (computed = false ∧ property.kind = .identifier)) :
    (Node.member object property computed optional).observedChildren = [object, property] := by
  unfold observedChildren
  split
  · simp_all [kind]
  · rfl

@[simp] theorem label_mapChildren (change : Node → Node) (node : Node) :
    (node.mapChildren change).label = node.label := by
  by_cases another : node.kind ≠ .member
  · rw [label_eq another, label_eq (by simpa using another), mapChildren_mapChildren]
  · cases node with
    | member => rfl
    | _ => simp [kind] at another

@[simp] theorem isInert_mapChildren (change : Node → Node) (node : Node) :
    (node.mapChildren change).isInert = node.isInert := by
  cases node with
  | returnStatement argument => cases argument <;> rfl
  | variableDeclarator id init => cases init <;> rfl
  | _ => rfl

@[simp] theorem ownObservation_mapChildren (change : Node → Node) (node : Node) :
    (node.mapChildren change).ownObservation = node.ownObservation := by
  simp [ownObservation]

theorem observedChildren_mapChildren
    (same : ∀ child ∈ node.children, child.kind = .identifier ↔ (change child).kind = .identifier) :
    (node.mapChildren change).observedChildren = node.observedChildren.map change := by
  by_cases another : node.kind ≠ .member
  · rw [observedChildren_eq another, observedChildren_eq (by simpa using another),
      children_mapChildren]
  · cases node with
    | member object property computed optional =>
        have keyed := same property (by simp [children])
        -- A name behind a dot stays one, and nothing else becomes one.
        by_cases named : computed = false ∧ property.kind = .identifier
        · obtain ⟨rfl, isName⟩ := named
          obtain ⟨name, rfl⟩ := exists_identifier isName
          obtain ⟨name', becomes⟩ := exists_identifier (keyed.mp isName)
          simp [mapChildren, children, withChildren, becomes, observedChildren]
        · have named' : ¬ (computed = false ∧ (change property).kind = .identifier) := by
            rwa [← keyed]
          rw [observedChildren_member named]
          exact observedChildren_member named'
    | _ => simp [kind] at another

theorem observations_mapChildren
    (kinds : ∀ child ∈ node.children, child.kind = .identifier ↔ (change child).kind = .identifier)
    (same : ∀ child ∈ node.children, (change child).observations = child.observations) :
    (node.mapChildren change).observations = node.observations := by
  rw [observations_eq, observations_eq node, observedChildren_mapChildren kinds, List.flatMap_map,
    ownObservation_mapChildren]
  congr 1
  exact List.flatMap_congr fun child observed => same child (mem_children_of_observed observed)

end EstreeLowering.Node
