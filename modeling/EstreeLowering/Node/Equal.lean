import EstreeLowering.Node.Children

namespace EstreeLowering

/-- Equality of fields up to the nodes in their slots. -/
def Field.sameData : Field → Field → Bool
  | .node _, .node _ => true
  | .nodes items, .nodes others => items.map Option.isSome == others.map Option.isSome
  | .value v, .value w => v.equal w
  | _, _ => false

def sameFields : List (String × Field) → List (String × Field) → Bool
  | [], [] => true
  | (key, field) :: fields, (otherKey, other) :: others =>
      key == otherKey && field.sameData other && sameFields fields others
  | _, _ => false

namespace Node

/-- Equality of nodes up to the nodes in their slots, which are equally many. -/
def sameData : Node → Node → Bool
  | .program body sourceType, .program body' sourceType' =>
      body.length == body'.length && sourceType == sourceType'
  | .expressionStatement _, .expressionStatement _ => true
  | .blockStatement body, .blockStatement body' => body.length == body'.length
  | .returnStatement argument, .returnStatement argument' => argument.isSome == argument'.isSome
  | .variableDeclaration declarations kind, .variableDeclaration declarations' kind' =>
      declarations.length == declarations'.length && kind == kind'
  | .variableDeclarator _ init, .variableDeclarator _ init' => init.isSome == init'.isSome
  | .identifier name, .identifier name' => name == name'
  | .privateIdentifier name, .privateIdentifier name' => name == name'
  | .literal value raw regex bigint, .literal value' raw' regex' bigint' =>
      value.equal value' && raw == raw' && regex == regex' && bigint == bigint'
  | .templateLiteral quasis expressions, .templateLiteral quasis' expressions' =>
      quasis == quasis' && expressions.length == expressions'.length
  | .taggedTemplate _ _, .taggedTemplate _ _ => true
  | .member _ _ computed optional, .member _ _ computed' optional' =>
      computed == computed' && optional == optional'
  | .binary operator _ _, .binary operator' _ _ => operator == operator'
  | .assignment operator _ _, .assignment operator' _ _ => operator == operator'
  | .call _ arguments optional, .call _ arguments' optional' =>
      arguments.length == arguments'.length && optional == optional'
  | .array elements, .array elements' =>
      elements.map Option.isSome == elements'.map Option.isSome
  | .conditional _ _ _, .conditional _ _ _ => true
  | .other typeName fields, .other typeName' fields' =>
      typeName == typeName' && sameFields fields fields'
  | _, _ => false

/-- Equality of trees: literal numbers are compared as numbers and raw JSON as JSON, all else
exactly. A tree that holds a `nan` does not equal itself. -/
def equal (node other : Node) : Bool :=
  node.sameData other &&
    (node.children.attach.zip other.children).all fun (⟨child, _⟩, otherChild) =>
      child.equal otherChild
termination_by sizeOf node
decreasing_by exact sizeOf_child ‹_›

end Node

end EstreeLowering
