import EstreeLowering.Binary64.Shortest
import EstreeLowering.Json.Basic

namespace EstreeLowering.Json

/-- A word of a JSON text, with the value of the word and not its characters. The last token of a
text that cannot be divided into words is `broken`. -/
inductive Token where
  | openArray
  | closeArray
  | openObject
  | closeObject
  | comma
  | colon
  | null
  | boolean (value : Bool)
  | number (value : Number)
  | string (value : String)
  | broken (fault : Fault) (inString : Bool)
deriving DecidableEq

/-- Signed decimal digits of an integer, the shortest text of a double-precision number. -/
def Number.text : Number → List Char
  | .integer n _ => (if n < 0 then ['-'] else []) ++ Nat.toDigits 10 n.natAbs
  | .real x => x.text

/-- Only the quote, the backslash and the control characters below a space are escaped. -/
def escape (c : Char) : List Char :=
  if c = '"' then ['\\', '"']
  else if c = '\\' then ['\\', '\\']
  else if c = '\n' then ['\\', 'n']
  else if c = '\r' then ['\\', 'r']
  else if c = '\t' then ['\\', 't']
  else if c = '\x08' then ['\\', 'b']
  else if c = '\x0c' then ['\\', 'f']
  else if c.toNat < 0x20 then
    ['\\', 'u', '0', '0', Nat.digitChar (c.toNat / 16), Nat.digitChar (c.toNat % 16)]
  else [c]

def quoted (s : String) : List Char :=
  '"' :: (s.toList.flatMap escape ++ ['"'])

namespace Token

def text : Token → List Char
  | .openArray => ['[']
  | .closeArray => [']']
  | .openObject => ['\x7b']
  | .closeObject => ['\x7d']
  | .comma => [',']
  | .colon => [':']
  | .null => ['n', 'u', 'l', 'l']
  | .boolean true => ['t', 'r', 'u', 'e']
  | .boolean false => ['f', 'a', 'l', 's', 'e']
  | .number n => n.text
  | .string s => quoted s
  | .broken _ _ => []

def opens : Token → Bool
  | .openArray | .openObject => true
  | _ => false

def closes : Token → Bool
  | .closeArray | .closeObject => true
  | _ => false

end Token

end EstreeLowering.Json
