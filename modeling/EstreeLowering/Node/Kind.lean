namespace EstreeLowering

/-- Seventeen kinds are dedicated: the fields of their nodes are known. Every other type name has
the kind `other`. -/
inductive NodeKind where
  | program
  | expressionStatement
  | blockStatement
  | returnStatement
  | variableDeclaration
  | variableDeclarator
  | identifier
  | privateIdentifier
  | literal
  | templateLiteral
  | taggedTemplate
  | member
  | binary
  | assignment
  | call
  | array
  | conditional
  | other
deriving DecidableEq, Repr

namespace NodeKind

def name : NodeKind → String
  | .program => "Program"
  | .expressionStatement => "ExpressionStatement"
  | .blockStatement => "BlockStatement"
  | .returnStatement => "ReturnStatement"
  | .variableDeclaration => "VariableDeclaration"
  | .variableDeclarator => "VariableDeclarator"
  | .identifier => "Identifier"
  | .privateIdentifier => "PrivateIdentifier"
  | .literal => "Literal"
  | .templateLiteral => "TemplateLiteral"
  | .taggedTemplate => "TaggedTemplateExpression"
  | .member => "MemberExpression"
  | .binary => "BinaryExpression"
  | .assignment => "AssignmentExpression"
  | .call => "CallExpression"
  | .array => "ArrayExpression"
  | .conditional => "ConditionalExpression"
  | .other => "Other"

def dedicated : List NodeKind :=
  [.program, .expressionStatement, .blockStatement, .returnStatement, .variableDeclaration,
    .variableDeclarator, .identifier, .privateIdentifier, .literal, .templateLiteral,
    .taggedTemplate, .member, .binary, .assignment, .call, .array, .conditional]

/-- The dedicated kind of that name. -/
def ofName? (name : String) : Option NodeKind :=
  dedicated.find? fun kind => kind.name == name

/-- The names of the fields of a dedicated kind, in the order in which they are written. -/
def fieldNames : NodeKind → List String
  | .program => ["body", "sourceType"]
  | .expressionStatement => ["expression"]
  | .blockStatement => ["body"]
  | .returnStatement => ["argument"]
  | .variableDeclaration => ["declarations", "kind"]
  | .variableDeclarator => ["id", "init"]
  | .identifier => ["name"]
  | .privateIdentifier => ["name"]
  | .literal => ["value", "raw", "regex", "bigint"]
  | .templateLiteral => ["quasis", "expressions"]
  | .taggedTemplate => ["tag", "quasi"]
  | .member => ["object", "property", "computed", "optional"]
  | .binary => ["operator", "left", "right"]
  | .assignment => ["operator", "left", "right"]
  | .call => ["callee", "arguments", "optional"]
  | .array => ["elements"]
  | .conditional => ["test", "consequent", "alternate"]
  | .other => []

end NodeKind

end EstreeLowering
