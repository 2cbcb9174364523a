import EstreeLowering.Proofs.Node.Position

/-!
Trees with placeholders.

A placeholder is a node of an undedicated kind whose type name a filling has a tree for. No hook
looks at a node of another kind than its own, except that an access looks whether its property is
an identifier and a template whether its substitutions are string literals. So a filling holds
neither identifiers nor literals: what it holds cannot be told from a placeholder by what stands
above it.
-/

namespace EstreeLowering

/-- The trees for placeholders, by the type names of these. -/
structure Filling where
  tree? : String → Option Node
  hidden : ∀ {typeName tree}, tree? typeName = some tree →
    tree.kind ≠ .identifier ∧ tree.kind ≠ .literal

namespace Filling

/-- The tree that takes the place of a node, if the node is a placeholder. -/
def at? (filling : Filling) : Node → Option Node
  | .other typeName _ => filling.tree? typeName
  | _ => none

variable {filling : Filling} {node tree : Node}

theorem at?_eq_none (dedicated : node.kind ≠ .other) : filling.at? node = none := by
  cases node with
  | other => exact absurd rfl dedicated
  | _ => rfl

theorem at?_of_isStringLiteral (isString : node.isStringLiteral = true) :
    filling.at? node = none := by
  cases node with
  | literal => rfl
  | _ => cases isString

theorem kind_of_at? (placeholder : (filling.at? node).isSome) : node.kind = .other := by
  by_contra dedicated
  simp [at?_eq_none dedicated] at placeholder

@[simp] theorem at?_mapChildren (filling : Filling) (change : Node → Node) (node : Node) :
    filling.at? (node.mapChildren change) = filling.at? node := by
  by_cases dedicated : node.kind ≠ .other
  · rw [at?_eq_none dedicated, at?_eq_none (by simpa using dedicated)]
  · cases node with
    | other => rfl
    | _ => simp [Node.kind] at dedicated

theorem hidden_of_at? (held : filling.at? node = some tree) :
    tree.kind ≠ .identifier ∧ tree.kind ≠ .literal := by
  cases node with
  | other => exact filling.hidden held
  | _ => cases held

end Filling

namespace Node

/-- The tree with every placeholder replaced by what the filling has for it. -/
def plug (filling : Filling) (node : Node) : Node :=
  match filling.at? node with
  | some tree => tree
  | none => node.withChildren (node.children.attach.map fun ⟨child, _⟩ => child.plug filling)
termination_by sizeOf node
decreasing_by exact sizeOf_child ‹_›

variable {filling : Filling} {node tree : Node}

theorem plug_placeholder (held : filling.at? node = some tree) : node.plug filling = tree := by
  rw [plug, held]

theorem plug_of_none (ordinary : filling.at? node = none) :
    node.plug filling = node.mapChildren (plug filling) := by
  rw [plug, ordinary]
  exact congrArg node.withChildren List.attach_map_val

theorem plug_leaf (leaf : node.children = []) (ordinary : filling.at? node = none) :
    node.plug filling = node := by
  rw [plug_of_none ordinary]
  exact mapChildren_of_unchanged (by simp [leaf])

@[simp] theorem plug_identifier (name : String) :
    (Node.identifier name).plug filling = .identifier name :=
  plug_leaf rfl rfl

theorem plug_stringLiteral (isString : node.isStringLiteral = true) : node.plug filling = node := by
  cases node with
  | literal => exact plug_leaf rfl rfl
  | _ => cases isString

@[simp] theorem plug_binary (operator : String) (left right : Node) :
    (Node.binary operator left right).plug filling =
      .binary operator (left.plug filling) (right.plug filling) :=
  plug_of_none rfl

@[simp] theorem plug_templateLiteral (quasis : List TemplateElement) (expressions : List Node) :
    (Node.templateLiteral quasis expressions).plug filling =
      .templateLiteral quasis (expressions.map (plug filling)) :=
  plug_of_none rfl

theorem eq_identifier_of_plug {name : String} (result : node.plug filling = .identifier name) :
    node = .identifier name := by
  cases held : filling.at? node with
  | none =>
      rw [plug_of_none held] at result
      exact eq_identifier_of_mapChildren result
  | some tree =>
      rw [plug_placeholder held] at result
      exact absurd (congrArg kind result) (Filling.hidden_of_at? held).1

@[simp] theorem stringLiteral?_plug (filling : Filling) (node : Node) :
    (node.plug filling).stringLiteral? = node.stringLiteral? := by
  cases held : filling.at? node with
  | none => rw [plug_of_none held, stringLiteral?_mapChildren]
  | some tree =>
      have placeholder := Filling.kind_of_at? (Option.isSome_of_eq_some held)
      rw [plug_placeholder held, stringLiteral?_eq_none (Filling.hidden_of_at? held).2,
        stringLiteral?_eq_none (by simp [placeholder])]

end Node

end EstreeLowering
