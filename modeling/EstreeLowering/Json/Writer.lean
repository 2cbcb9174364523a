import EstreeLowering.Json.Token

namespace EstreeLowering.Json

mutual

/-- The tokens of a value, and then `rest`. -/
def tokensBefore : Json → List Token → List Token
  | .null, rest => .null :: rest
  | .boolean b, rest => .boolean b :: rest
  | .number n, rest => .number n :: rest
  | .string s, rest => .string s :: rest
  | .array items, rest => .openArray :: itemTokensBefore items (.closeArray :: rest)
  | .object entries, rest => .openObject :: entryTokensBefore entries (.closeObject :: rest)

def itemTokensBefore : List Json → List Token → List Token
  | [], rest => rest
  | [item], rest => item.tokensBefore rest
  | item :: items, rest => item.tokensBefore (.comma :: itemTokensBefore items rest)

def entryTokensBefore : List (String × Json) → List Token → List Token
  | [], rest => rest
  | [(key, value)], rest => .string key :: .colon :: value.tokensBefore rest
  | (key, value) :: entries, rest =>
      .string key :: .colon :: value.tokensBefore (.comma :: entryTokensBefore entries rest)

end

def tokens (value : Json) : List Token :=
  value.tokensBefore []

/-- Without blanks, or one entry a line with two spaces for each array or object around it. -/
inductive Layout where
  | compact
  | pretty
deriving DecidableEq, Repr

def newline (depth : Nat) : List Char :=
  '\n' :: List.replicate (2 * depth) ' '

namespace Layout

/-- The blanks between two tokens, the first one inside `depth` arrays and objects if it opens one,
its own included. -/
def gap (layout : Layout) (depth : Nat) (token next : Token) : List Char :=
  match layout with
  | .compact => []
  | .pretty =>
      if token.opens then (if next.closes then [] else newline depth)
      else if next.closes then newline (depth - 1)
      else match token with
        | .comma => newline depth
        | .colon => [' ']
        | _ => []

/-- The depth behind a token. -/
def depthAfter (depth : Nat) (token : Token) : Nat :=
  if token.opens then depth + 1 else if token.closes then depth - 1 else depth

/-- The text of the tokens behind the characters of `seen`, which stand last first. -/
def spread (layout : Layout) (seen : List Char) (depth : Nat) : List Token → List Char
  | [] => seen.reverse
  | [token] => (token.text.reverseAux seen).reverse
  | token :: next :: rest =>
      let depth := depthAfter depth token
      let gap := layout.gap depth token next
      layout.spread (gap.reverseAux (token.text.reverseAux seen)) depth (next :: rest)

end Layout

def render (layout : Layout) (value : Json) : String :=
  String.ofList (layout.spread [] 0 value.tokens)

end EstreeLowering.Json
