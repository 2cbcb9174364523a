import EstreeLowering.Node.Build
import EstreeLowering.Walk.Hook

namespace EstreeLowering.MemberAccess

/-- The key of an access by a name, and the access by a string that it is turned into: `object.key`
becomes `object['key']`. In `object[key]` the key is known only at run time. -/
def convert? : Node → Option (String × Node)
  | .member object (.identifier key) false optional =>
      some (key, .member object (.stringLiteral key) true optional)
  | _ => none

/-- Converts a node in its slot, except at the root. -/
def enter : Hook := fun node parent =>
  match parent, convert? node with
  | some _, some (key, converted) => ⟨converted, none, [.memberConverted key]⟩
  | _, _ => .keep node

end EstreeLowering.MemberAccess
