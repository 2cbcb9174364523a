import EstreeLowering.Node.Children
import Mathlib

namespace EstreeLowering

variable {items : List (Option Node)} {nodes front back first second : List Node}

theorem fillItems_append (enough : front.length = (items.filterMap id).length) :
    fillItems items (front ++ back) = ((fillItems items front).1, back) := by
  induction items generalizing front with
  | nil =>
      have empty : front = [] := List.length_eq_zero_iff.mp enough
      subst empty
      rfl
  | cons item items ih =>
      cases item with
      | none => simp only [fillItems, ih (by simpa using enough)]
      | some held =>
          cases front with
          | nil => simp at enough
          | cons node front =>
              simp only [List.cons_append, fillItems, ih (by simpa using enough)]

theorem filterMap_fillItems (enough : nodes.length = (items.filterMap id).length) :
    (fillItems items nodes).1.filterMap id = nodes := by
  induction items generalizing nodes with
  | nil =>
      have empty : nodes = [] := List.length_eq_zero_iff.mp enough
      subst empty
      rfl
  | cons item items ih =>
      cases item with
      | none =>
          simp only [fillItems, List.filterMap_cons, id_eq]
          exact ih (by simpa using enough)
      | some held =>
          cases nodes with
          | nil => simp at enough
          | cons node nodes =>
              simp only [fillItems, List.filterMap_cons, id_eq, List.cons.injEq, true_and]
              exact ih (by simpa using enough)

theorem fillItems_self : (fillItems items (items.filterMap id)).1 = items := by
  induction items with
  | nil => rfl
  | cons item items ih =>
      cases item with
      | none => exact congrArg (none :: ·) ih
      | some held => exact congrArg (some held :: ·) ih

theorem fillItems_fillItems (enough : first.length = (items.filterMap id).length)
    (again : second.length = (items.filterMap id).length) :
    (fillItems (fillItems items first).1 second).1 = (fillItems items second).1 := by
  induction items generalizing first second with
  | nil =>
      have empty : first = [] := List.length_eq_zero_iff.mp enough
      subst empty
      rfl
  | cons item items ih =>
      cases item with
      | none => simp only [fillItems, ih (by simpa using enough) (by simpa using again)]
      | some held =>
          cases first with
          | nil => simp at enough
          | cons node first =>
              cases second with
              | nil => simp at again
              | cons other second =>
                  simp only [fillItems, ih (by simpa using enough) (by simpa using again)]

namespace Field

variable {field : Field}

theorem fill_append (enough : front.length = field.children.length) :
    field.fill (front ++ back) = ((field.fill front).1, back) := by
  cases field with
  | node held =>
      obtain ⟨only, rfl⟩ := List.length_eq_one_iff.mp enough
      rfl
  | nodes items => simp only [fill, fillItems_append enough]
  | value json =>
      have empty : front = [] := List.length_eq_zero_iff.mp enough
      subst empty
      rfl

theorem children_fill (enough : nodes.length = field.children.length) :
    (field.fill nodes).1.children = nodes := by
  cases field with
  | node held =>
      obtain ⟨only, rfl⟩ := List.length_eq_one_iff.mp enough
      rfl
  | nodes items => exact filterMap_fillItems enough
  | value json => exact (List.length_eq_zero_iff.mp enough).symm

theorem fill_self : (field.fill field.children).1 = field := by
  cases field with
  | node held => rfl
  | nodes items => simp only [fill, children, fillItems_self]
  | value json => rfl

theorem fill_fill (enough : first.length = field.children.length)
    (again : second.length = field.children.length) :
    ((field.fill first).1.fill second).1 = (field.fill second).1 := by
  cases field with
  | node held =>
      obtain ⟨only, rfl⟩ := List.length_eq_one_iff.mp enough
      obtain ⟨other, rfl⟩ := List.length_eq_one_iff.mp again
      rfl
  | nodes items => simp only [fill, fillItems_fillItems enough again]
  | value json => rfl

end Field

variable {fields : List (String × Field)}

theorem fillFields_cons_append {key : String} {field : Field}
    (enough : front.length = field.children.length) :
    fillFields ((key, field) :: fields) (front ++ back) =
      (key, (field.fill front).1) :: fillFields fields back := by
  simp only [fillFields, Field.fill_append enough]

/-- As many nodes as the slots of a field and of those behind it divide between the two. -/
theorem exists_division {field : Field} {others : List Node}
    (enough : nodes.length = (field.children ++ others).length) :
    ∃ front back, nodes = front ++ back ∧ front.length = field.children.length ∧
      back.length = others.length := by
  rw [List.length_append] at enough
  refine ⟨nodes.take field.children.length, nodes.drop field.children.length,
    (List.take_append_drop _ _).symm, ?_, ?_⟩
  · rw [List.length_take]
    omega
  · rw [List.length_drop]
    omega

theorem flatMap_fillFields
    (enough : nodes.length = (fields.flatMap fun field => field.2.children).length) :
    ((fillFields fields nodes).flatMap fun field => field.2.children) = nodes := by
  induction fields generalizing nodes with
  | nil => exact (List.length_eq_zero_iff.mp enough).symm
  | cons entry fields ih =>
      obtain ⟨front, back, rfl, here, behind⟩ := exists_division enough
      rw [fillFields_cons_append here, List.flatMap_cons, Field.children_fill here, ih behind]

theorem keys_fillFields (fields : List (String × Field)) (nodes : List Node) :
    (fillFields fields nodes).map (·.1) = fields.map (·.1) := by
  induction fields generalizing nodes with
  | nil => rfl
  | cons entry fields ih => simp only [fillFields, List.map_cons, ih]

theorem fillFields_self :
    fillFields fields (fields.flatMap fun field => field.2.children) = fields := by
  induction fields with
  | nil => rfl
  | cons entry fields ih =>
      rw [List.flatMap_cons, fillFields_cons_append rfl, Field.fill_self, ih]

theorem fillFields_fillFields
    (enough : first.length = (fields.flatMap fun field => field.2.children).length)
    (again : second.length = (fields.flatMap fun field => field.2.children).length) :
    fillFields (fillFields fields first) second = fillFields fields second := by
  induction fields generalizing first second with
  | nil => rfl
  | cons entry fields ih =>
      obtain ⟨front, back, rfl, here, behind⟩ := exists_division enough
      obtain ⟨front', back', rfl, here', behind'⟩ := exists_division again
      have refill : front'.length = (entry.2.fill front).1.children.length := by
        rw [Field.children_fill here, here', here]
      rw [fillFields_cons_append here, fillFields_cons_append refill,
        fillFields_cons_append here', Field.fill_fill here here', ih behind behind']

namespace Node

variable {node : Node}

@[simp] theorem kind_withChildren (node : Node) (nodes : List Node) :
    (node.withChildren nodes).kind = node.kind := by
  unfold withChildren
  split <;> rfl

theorem children_withChildren (enough : nodes.length = node.children.length) :
    (node.withChildren nodes).children = nodes := by
  cases node with
  | program | blockStatement | variableDeclaration | templateLiteral => rfl
  | array elements => exact filterMap_fillItems enough
  | other typeName fields => exact flatMap_fillFields enough
  | identifier | privateIdentifier | literal => exact (List.length_eq_zero_iff.mp enough).symm
  | returnStatement argument =>
      cases argument with
      | none => exact (List.length_eq_zero_iff.mp enough).symm
      | some held =>
          obtain ⟨only, rfl⟩ := List.length_eq_one_iff.mp enough
          rfl
  | variableDeclarator id init =>
      cases init with
      | none =>
          obtain ⟨only, rfl⟩ := List.length_eq_one_iff.mp enough
          rfl
      | some held =>
          obtain ⟨id', init', rfl⟩ := List.length_eq_two.mp enough
          rfl
  | expressionStatement =>
      obtain ⟨only, rfl⟩ := List.length_eq_one_iff.mp enough
      rfl
  | call =>
      cases nodes with
      | nil => simp [children] at enough
      | cons callee arguments => rfl
  | taggedTemplate | member | binary | assignment =>
      obtain ⟨left, right, rfl⟩ := List.length_eq_two.mp enough
      rfl
  | conditional =>
      obtain ⟨test, consequent, alternate, rfl⟩ := List.length_eq_three.mp enough
      rfl

@[simp] theorem withChildren_children (node : Node) : node.withChildren node.children = node := by
  cases node with
  | array elements => simp only [withChildren, children, fillItems_self]
  | other typeName fields => simp only [withChildren, children, fillFields_self]
  | returnStatement argument => cases argument <;> rfl
  | variableDeclarator id init => cases init <;> rfl
  | _ => rfl

theorem withChildren_withChildren (enough : first.length = node.children.length)
    (again : second.length = node.children.length) :
    (node.withChildren first).withChildren second = node.withChildren second := by
  cases node with
  | program | blockStatement | variableDeclaration | templateLiteral => rfl
  | identifier | privateIdentifier | literal => rfl
  | array elements => simp only [withChildren, fillItems_fillItems enough again]
  | other typeName fields => simp only [withChildren, fillFields_fillFields enough again]
  | returnStatement argument =>
      cases argument with
      | none => rfl
      | some held =>
          obtain ⟨only, rfl⟩ := List.length_eq_one_iff.mp enough
          obtain ⟨other, rfl⟩ := List.length_eq_one_iff.mp again
          rfl
  | variableDeclarator id init =>
      cases init with
      | none =>
          obtain ⟨only, rfl⟩ := List.length_eq_one_iff.mp enough
          obtain ⟨other, rfl⟩ := List.length_eq_one_iff.mp again
          rfl
      | some held =>
          obtain ⟨id', init', rfl⟩ := List.length_eq_two.mp enough
          obtain ⟨id'', init'', rfl⟩ := List.length_eq_two.mp again
          rfl
  | expressionStatement =>
      obtain ⟨only, rfl⟩ := List.length_eq_one_iff.mp enough
      obtain ⟨other, rfl⟩ := List.length_eq_one_iff.mp again
      rfl
  | call =>
      cases first with
      | nil => simp [children] at enough
      | cons callee arguments =>
          cases second with
          | nil => simp [children] at again
          | cons callee' arguments' => rfl
  | taggedTemplate | member | binary | assignment =>
      obtain ⟨left, right, rfl⟩ := List.length_eq_two.mp enough
      obtain ⟨left', right', rfl⟩ := List.length_eq_two.mp again
      rfl
  | conditional =>
      obtain ⟨test, consequent, alternate, rfl⟩ := List.length_eq_three.mp enough
      obtain ⟨test', consequent', alternate', rfl⟩ := List.length_eq_three.mp again
      rfl

section

variable {index : Nat} {child later : Node}

theorem withChildren_set_self (found : node.children[index]? = some child) :
    node.withChildren (node.children.set index child) = node := by
  obtain ⟨bound, rfl⟩ := List.getElem?_eq_some_iff.mp found
  rw [List.set_getElem_self, withChildren_children]

theorem children_withChildren_set (node : Node) (index : Nat) (child : Node) :
    (node.withChildren (node.children.set index child)).children = node.children.set index child :=
  children_withChildren List.length_set

theorem withChildren_set_set (node : Node) (index : Nat) (child later : Node) :
    (node.withChildren (node.children.set index child)).withChildren
        ((node.children.set index child).set index later) =
      node.withChildren (node.children.set index later) := by
  rw [List.set_set, withChildren_withChildren List.length_set List.length_set]

end

def mapChildren (change : Node → Node) (node : Node) : Node :=
  node.withChildren (node.children.map change)

variable {change : Node → Node}

@[simp] theorem kind_mapChildren (change : Node → Node) (node : Node) :
    (node.mapChildren change).kind = node.kind :=
  kind_withChildren node _

@[simp] theorem children_mapChildren (change : Node → Node) (node : Node) :
    (node.mapChildren change).children = node.children.map change :=
  children_withChildren (List.length_map change)

theorem mapChildren_of_unchanged (unchanged : ∀ child ∈ node.children, change child = child) :
    node.mapChildren change = node := by
  rw [mapChildren, List.map_congr_left unchanged, List.map_id', withChildren_children]

theorem mapChildren_mapChildren (first second : Node → Node) (node : Node) :
    (node.mapChildren first).mapChildren second =
      node.mapChildren fun child => second (first child) := by
  rw [mapChildren, children_mapChildren, List.map_map, mapChildren,
    withChildren_withChildren (List.length_map first) (List.length_map _)]
  rfl

theorem mapChildren_congr {other : Node → Node}
    (same : ∀ child ∈ node.children, change child = other child) :
    node.mapChildren change = node.mapChildren other := by
  rw [mapChildren, List.map_congr_left same, mapChildren]

theorem stringLiteral?_eq_none (another : node.kind ≠ .literal) : node.stringLiteral? = none := by
  cases node with
  | literal => exact absurd rfl another
  | _ => rfl

/-- A string literal has no children, and what has other children does not become one. -/
@[simp] theorem stringLiteral?_mapChildren (change : Node → Node) (node : Node) :
    (node.mapChildren change).stringLiteral? = node.stringLiteral? := by
  by_cases another : node.kind ≠ .literal
  · rw [stringLiteral?_eq_none another, stringLiteral?_eq_none (by simpa using another)]
  · cases node with
    | literal => rfl
    | _ => simp [kind] at another

theorem eq_identifier_of_mapChildren {name : String}
    (result : node.mapChildren change = .identifier name) : node = .identifier name := by
  cases node with
  | identifier => exact result
  | _ =>
      have kinds := congrArg kind result
      rw [kind_mapChildren] at kinds
      cases kinds

theorem eq_member_of_mapChildren {object property : Node} {computed optional : Bool}
    (result : node.mapChildren change = .member object property computed optional) :
    ∃ object' property', node = .member object' property' computed optional ∧
      change object' = object ∧ change property' = property := by
  cases node with
  | member object' property' computed' optional' =>
      simp only [mapChildren, children, List.map_cons, List.map_nil, withChildren,
        member.injEq] at result
      obtain ⟨objects, properties, rfl, rfl⟩ := result
      exact ⟨object', property', rfl, objects, properties⟩
  | _ =>
      have kinds := congrArg kind result
      rw [kind_mapChildren] at kinds
      cases kinds

theorem eq_templateLiteral_of_mapChildren {quasis : List TemplateElement} {expressions : List Node}
    (result : node.mapChildren change = .templateLiteral quasis expressions) :
    ∃ expressions', node = .templateLiteral quasis expressions' ∧
      expressions'.map change = expressions := by
  cases node with
  | templateLiteral quasis' expressions' =>
      simp only [mapChildren, children, withChildren, templateLiteral.injEq] at result
      obtain ⟨rfl, same⟩ := result
      exact ⟨expressions', rfl, same⟩
  | _ =>
      have kinds := congrArg kind result
      rw [kind_mapChildren] at kinds
      cases kinds

end Node

end EstreeLowering
