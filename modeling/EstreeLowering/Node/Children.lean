import EstreeLowering.Node.Basic

/-!
The children of a node, in evaluation order.

Traversals see a node only through `children` and `withChildren`: the children stand in slots, and
putting as many nodes into the slots changes nothing else about the node. The segments of a
template are no nodes, and the holes of a list are no slots.
-/

namespace EstreeLowering

/-- Puts nodes into the places of a list that are no holes, and returns the nodes left over. -/
def fillItems : List (Option Node) → List Node → List (Option Node) × List Node
  | some _ :: items, node :: nodes =>
      let (filled, left) := fillItems items nodes
      (some node :: filled, left)
  | none :: items, nodes =>
      let (filled, left) := fillItems items nodes
      (none :: filled, left)
  | items, nodes => (items, nodes)

namespace Field

def children : Field → List Node
  | .node only => [only]
  | .nodes items => items.filterMap id
  | .value _ => []

/-- Puts nodes into the slots of a field, and returns the nodes left over. -/
def fill : Field → List Node → Field × List Node
  | .node _, first :: left => (.node first, left)
  | .nodes items, supply =>
      let (filled, left) := fillItems items supply
      (.nodes filled, left)
  | field, supply => (field, supply)

end Field

/-- Puts nodes into the slots of fields one after the other. -/
def fillFields : List (String × Field) → List Node → List (String × Field)
  | [], _ => []
  | (key, field) :: fields, nodes =>
      let (filled, left) := field.fill nodes
      (key, filled) :: fillFields fields left

namespace Node

def children : Node → List Node
  | .program body _ => body
  | .expressionStatement expression => [expression]
  | .blockStatement body => body
  | .returnStatement argument => argument.toList
  | .variableDeclaration declarations _ => declarations
  | .variableDeclarator id init => id :: init.toList
  | .identifier _ => []
  | .privateIdentifier _ => []
  | .literal _ _ _ _ => []
  | .templateLiteral _ expressions => expressions
  | .taggedTemplate tag quasi => [tag, quasi]
  | .member object property _ _ => [object, property]
  | .binary _ left right => [left, right]
  | .assignment _ left right => [left, right]
  | .call callee arguments _ => callee :: arguments
  | .array elements => elements.filterMap id
  | .conditional test consequent alternate => [test, consequent, alternate]
  | .other _ fields => fields.flatMap fun field => field.2.children

/-- The node with other children, which must be as many as its slots. -/
def withChildren : Node → List Node → Node
  | .program _ sourceType, nodes => .program nodes sourceType
  | .expressionStatement _, [expression] => .expressionStatement expression
  | .blockStatement _, nodes => .blockStatement nodes
  | .returnStatement (some _), [argument] => .returnStatement (some argument)
  | .variableDeclaration _ kind, nodes => .variableDeclaration nodes kind
  | .variableDeclarator _ (some _), [id, init] => .variableDeclarator id (some init)
  | .variableDeclarator _ none, [id] => .variableDeclarator id none
  | .templateLiteral quasis _, nodes => .templateLiteral quasis nodes
  | .taggedTemplate _ _, [tag, quasi] => .taggedTemplate tag quasi
  | .member _ _ computed optional, [object, property] => .member object property computed optional
  | .binary operator _ _, [left, right] => .binary operator left right
  | .assignment operator _ _, [left, right] => .assignment operator left right
  | .call _ _ optional, callee :: arguments => .call callee arguments optional
  | .array elements, nodes => .array (fillItems elements nodes).1
  | .conditional _ _ _, [test, consequent, alternate] => .conditional test consequent alternate
  | .other typeName fields, nodes => .other typeName (fillFields fields nodes)
  | node, _ => node

/-- The node with `child` in its slot `index`, none past the last slot. -/
def setChild? (node : Node) (index : Nat) (child : Node) : Option Node :=
  if index < node.children.length then some (node.withChildren (node.children.set index child))
  else none

theorem sizeOf_items {items : List (Option Node)} {node : Node}
    (found : node ∈ items.filterMap id) : sizeOf node < sizeOf items := by
  induction items with
  | nil => cases found
  | cons item items ih =>
      cases item with
      | none =>
          have smaller := ih (by simpa using found)
          simp only [List.cons.sizeOf_spec, Option.none.sizeOf_spec]
          omega
      | some first =>
          simp only [List.filterMap_cons, id_eq, List.mem_cons] at found
          simp only [List.cons.sizeOf_spec, Option.some.sizeOf_spec]
          rcases found with rfl | later
          · omega
          · have smaller := ih later
            omega

theorem sizeOf_fields {fields : List (String × Field)} {node : Node}
    (found : node ∈ fields.flatMap fun field => field.2.children) :
    sizeOf node < sizeOf fields := by
  induction fields with
  | nil => cases found
  | cons entry fields ih =>
      obtain ⟨key, field⟩ := entry
      simp only [List.flatMap_cons, List.mem_append] at found
      simp only [List.cons.sizeOf_spec, Prod.mk.sizeOf_spec]
      rcases found with here | later
      · have smaller : sizeOf node < sizeOf field := by
          cases field with
          | node only =>
              obtain rfl : node = only := List.mem_singleton.mp here
              simp only [Field.node.sizeOf_spec]
              omega
          | nodes items =>
              have within := sizeOf_items (show node ∈ items.filterMap id from here)
              simp only [Field.nodes.sizeOf_spec]
              omega
          | value json => cases here
        omega
      · have smaller := ih later
        omega

/-- A child is smaller than its parent, so what is defined on a node through its children is
defined. -/
theorem sizeOf_child {node child : Node} (isChild : child ∈ node.children) :
    sizeOf child < sizeOf node := by
  cases node with
  | array elements =>
      have smaller := sizeOf_items isChild
      simp only [array.sizeOf_spec]
      omega
  | other typeName fields =>
      have smaller := sizeOf_fields isChild
      simp only [other.sizeOf_spec]
      omega
  | program body _ | blockStatement body | variableDeclaration body _ | templateLiteral _ body =>
      have smaller : sizeOf child < sizeOf body := List.sizeOf_lt_of_mem isChild
      simp only [program.sizeOf_spec, blockStatement.sizeOf_spec, variableDeclaration.sizeOf_spec,
        templateLiteral.sizeOf_spec]
      omega
  | call callee arguments _ =>
      simp only [children, List.mem_cons] at isChild
      simp only [call.sizeOf_spec]
      rcases isChild with rfl | later
      · omega
      · have smaller := List.sizeOf_lt_of_mem later
        omega
  | returnStatement argument =>
      cases argument with
      | none => cases isChild
      | some only =>
          obtain rfl := List.mem_singleton.mp isChild
          simp only [returnStatement.sizeOf_spec, Option.some.sizeOf_spec]
          omega
  | variableDeclarator id init =>
      simp only [children, List.mem_cons, Option.mem_toList] at isChild
      simp only [variableDeclarator.sizeOf_spec]
      rcases isChild with rfl | initial
      · omega
      · simp only [initial, Option.some.sizeOf_spec]
        omega
  | identifier | privateIdentifier | literal => cases isChild
  | expressionStatement expression =>
      obtain rfl := List.mem_singleton.mp isChild
      simp only [expressionStatement.sizeOf_spec]
      omega
  | taggedTemplate | member | binary | assignment =>
      simp only [children, List.mem_cons, List.not_mem_nil, or_false] at isChild
      simp only [taggedTemplate.sizeOf_spec, member.sizeOf_spec, binary.sizeOf_spec,
        assignment.sizeOf_spec]
      rcases isChild with rfl | rfl <;> omega
  | conditional =>
      simp only [children, List.mem_cons, List.not_mem_nil, or_false] at isChild
      simp only [conditional.sizeOf_spec]
      rcases isChild with rfl | rfl | rfl <;> omega

end Node

end EstreeLowering
