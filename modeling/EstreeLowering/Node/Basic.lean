import EstreeLowering.Json.Basic
import EstreeLowering.Node.Kind

namespace EstreeLowering

/-- What a literal stands for. Regular expressions and the like carry raw JSON. -/
inductive LiteralValue where
  | null
  | boolean (value : Bool)
  | number (value : Binary64)
  | string (value : String)
  | raw (value : Json)

structure RegexLiteral where
  pattern : String
  flags : String
deriving DecidableEq

inductive VariableKind where
  | varKind
  | letKind
  | constKind
deriving DecidableEq, Repr

/-- A text segment of a template. `cooked` is the text with its escapes resolved; a tagged template
may hold escapes that cannot be. -/
structure TemplateElement where
  raw : String
  cooked : Option String
  tail : Bool
deriving DecidableEq

mutual

/-- A syntax tree. A node of a dedicated kind has the fields of that kind. A node of any other kind
keeps its fields as they are, in their order, except that the nodes among them are read as nodes, so
a traversal reaches every node of a program. -/
inductive Node where
  | program (body : List Node) (sourceType : Option String)
  | expressionStatement (expression : Node)
  | blockStatement (body : List Node)
  | returnStatement (argument : Option Node)
  | variableDeclaration (declarations : List Node) (kind : VariableKind)
  | variableDeclarator (id : Node) (init : Option Node)
  | identifier (name : String)
  | privateIdentifier (name : String)
  | literal (value : LiteralValue) (raw : Option String) (regex : Option RegexLiteral)
      (bigint : Option String)
  | templateLiteral (quasis : List TemplateElement) (expressions : List Node)
  | taggedTemplate (tag : Node) (quasi : Node)
  | member (object : Node) (property : Node) (computed : Bool) (optional : Bool)
  | binary (operator : String) (left : Node) (right : Node)
  | assignment (operator : String) (left : Node) (right : Node)
  | call (callee : Node) (arguments : List Node) (optional : Bool)
  | array (elements : List (Option Node))
  | conditional (test : Node) (consequent : Node) (alternate : Node)
  | other (typeName : String) (fields : List (String × Field))

/-- A field of a node of an undedicated kind: a node, a list of nodes with holes, or raw JSON. -/
inductive Field where
  | node (node : Node)
  | nodes (items : List (Option Node))
  | value (value : Json)

end

namespace LiteralValue

def asString? : LiteralValue → Option String
  | .string s => some s
  | _ => none

/-- Equality of numbers is numerical, equality of raw JSON that of JSON values. -/
def equal : LiteralValue → LiteralValue → Bool
  | .null, .null => true
  | .boolean a, .boolean b => a == b
  | .number x, .number y => x.equal y
  | .string s, .string t => s == t
  | .raw v, .raw w => v.equal w
  | _, _ => false

end LiteralValue

def VariableKind.name : VariableKind → String
  | .varKind => "var"
  | .letKind => "let"
  | .constKind => "const"

/-- The text of a segment, empty where its escapes cannot be resolved. -/
def TemplateElement.text (element : TemplateElement) : String :=
  element.cooked.getD ""

namespace Node

instance : Inhabited Node := ⟨.identifier ""⟩

def kind : Node → NodeKind
  | .program .. => .program
  | .expressionStatement .. => .expressionStatement
  | .blockStatement .. => .blockStatement
  | .returnStatement .. => .returnStatement
  | .variableDeclaration .. => .variableDeclaration
  | .variableDeclarator .. => .variableDeclarator
  | .identifier .. => .identifier
  | .privateIdentifier .. => .privateIdentifier
  | .literal .. => .literal
  | .templateLiteral .. => .templateLiteral
  | .taggedTemplate .. => .taggedTemplate
  | .member .. => .member
  | .binary .. => .binary
  | .assignment .. => .assignment
  | .call .. => .call
  | .array .. => .array
  | .conditional .. => .conditional
  | .other .. => .other

/-- The type name that is written for the node. -/
def typeName : Node → String
  | .other typeName _ => typeName
  | node => node.kind.name

/-- The first field named `key` of a node of an undedicated kind. -/
def field? (key : String) : Node → Option Field
  | .other _ fields => fields.lookup key
  | _ => none

def stringLiteral? : Node → Option String
  | .literal value _ _ _ => value.asString?
  | _ => none

def isStringLiteral (node : Node) : Bool :=
  node.stringLiteral?.isSome

end Node

end EstreeLowering
