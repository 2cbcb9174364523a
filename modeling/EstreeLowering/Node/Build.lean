import EstreeLowering.Node.Basic

namespace EstreeLowering

/-- A segment whose written and resolved texts agree. -/
def TemplateElement.ofText (text : String) (tail : Bool) : TemplateElement :=
  ⟨text, some text, tail⟩

/-- Segments of those texts, the last one marked as the tail. -/
def TemplateElement.ofTexts : List String → List TemplateElement
  | [] => []
  | [text] => [.ofText text true]
  | text :: texts => .ofText text false :: ofTexts texts

namespace Node

def literalOf (value : LiteralValue) : Node :=
  .literal value none none none

def stringLiteral (text : String) : Node :=
  literalOf (.string text)

def numberLiteral (value : Binary64) : Node :=
  literalOf (.number value)

def booleanLiteral (value : Bool) : Node :=
  literalOf (.boolean value)

def nullLiteral : Node :=
  literalOf .null

def template (texts : List String) (expressions : List Node) : Node :=
  .templateLiteral (TemplateElement.ofTexts texts) expressions

def access (object property : Node) (computed : Bool) : Node :=
  .member object property computed false

def callOf (callee : Node) (arguments : List Node) : Node :=
  .call callee arguments false

def assign (target value : Node) : Node :=
  .assignment "=" target value

def declare (kind : VariableKind) (name : String) (init : Option Node) : Node :=
  .variableDeclaration [.variableDeclarator (.identifier name) init] kind

def programOf (body : List Node) : Node :=
  .program body none

end Node

end EstreeLowering
