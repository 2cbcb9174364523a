import EstreeLowering.Named

namespace EstreeLowering

inductive Rule where
  | memberAccess
  | templateLiteral
deriving DecidableEq, Repr

namespace Rule

/-- Every rule, in the order in which they are registered. -/
def all : List Rule :=
  [.memberAccess, .templateLiteral]

def name : Rule → String
  | .memberAccess => "MemberExpressionTransformer"
  | .templateLiteral => "TemplateLiteralTransformer"

def ofName? (query : String) : Option Rule :=
  findNamed? name all query

end Rule

end EstreeLowering
