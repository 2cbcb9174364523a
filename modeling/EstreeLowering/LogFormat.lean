import EstreeLowering.Named

namespace EstreeLowering

inductive LogFormat where
  | text
  | tree
  | json
deriving DecidableEq, Repr

namespace LogFormat

def name : LogFormat → String
  | .text => "text"
  | .tree => "tree"
  | .json => "json"

def ofName? (query : String) : Option LogFormat :=
  findNamed? name [text, tree, json] query

/-- The format asked for, if there is one of that name; else a tree on a terminal and plain text
elsewhere. -/
def resolve (request : Option String) (terminal : Bool) : LogFormat :=
  (request.bind ofName?).getD (if terminal then tree else text)

end LogFormat

end EstreeLowering
