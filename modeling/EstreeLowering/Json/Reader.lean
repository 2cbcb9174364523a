import EstreeLowering.Json.Lexer

/-!
Reading values.

The reader is a machine over tokens. What it has read so far of the arrays and objects around the
current place stands in frames, the innermost first, so every step takes a token off the front.
-/

namespace EstreeLowering.Json

/-- The deepest nesting of arrays and objects that is read. -/
def maxNesting : Nat := 127

/-- An array or object under way; what it holds so far stands last first. -/
inductive Frame where
  | array (before : List Json)
  | object (before : List (String × Json)) (key : String)

/-- What is due next: a value; what follows a value just read; a key of the innermost object. -/
inductive Due where
  | value
  | rest (value : Json)
  | key (before : List (String × Json))

/-- What is wrong where a value is due and none begins. -/
def valueFault : List Token → Fault
  | [] => .endOfText
  | .broken fault _ :: _ => fault
  | _ => .malformed

/-- What is wrong where a key is due and no string stands. -/
def keyFault : List Token → Fault
  | [] => .endOfText
  | .broken fault true :: _ => fault
  | _ => .malformed

/-- What is wrong where only punctuation can stand. -/
def punctuationFault : List Token → Fault
  | [] => .endOfText
  | _ => .malformed

/-- Reads on until the outermost value is complete. -/
def readOn (due : Due) (frames : List Frame) (tokens : List Token) : ReadFrom Token Json :=
  match due, frames, tokens with
  | .value, frames, .null :: rest => readOn (.rest .null) frames rest
  | .value, frames, .boolean b :: rest => readOn (.rest (.boolean b)) frames rest
  | .value, frames, .number n :: rest => readOn (.rest (.number n)) frames rest
  | .value, frames, .string s :: rest => readOn (.rest (.string s)) frames rest
  | .value, frames, .openArray :: rest =>
      if maxNesting ≤ frames.length then .error .malformed
      else match rest with
        | .closeArray :: rest => readOn (.rest (.array [])) frames rest
        | rest => readOn .value (.array [] :: frames) rest
  | .value, frames, .openObject :: rest =>
      if maxNesting ≤ frames.length then .error .malformed
      else match rest with
        | .closeObject :: rest => readOn (.rest (.object [])) frames rest
        | rest => readOn (.key []) frames rest
  | .value, _, tokens => .error (valueFault tokens)
  | .rest v, [], tokens => .ok (v, tokens)
  | .rest v, .array before :: frames, .comma :: rest =>
      readOn .value (.array (v :: before) :: frames) rest
  | .rest v, .array before :: frames, .closeArray :: rest =>
      readOn (.rest (.array (v :: before).reverse)) frames rest
  | .rest v, .object before key :: frames, .comma :: rest =>
      readOn (.key ((key, v) :: before)) frames rest
  | .rest v, .object before key :: frames, .closeObject :: rest =>
      readOn (.rest (.object ((key, v) :: before).reverse)) frames rest
  | .rest _, _, tokens => .error (punctuationFault tokens)
  | .key before, frames, .string key :: .colon :: rest =>
      readOn .value (.object before key :: frames) rest
  | .key _, _, .string _ :: rest => .error (punctuationFault rest)
  | .key _, _, tokens => .error (keyFault tokens)

/-- The value that the tokens begin with, and the tokens behind it. -/
def ofTokens (tokens : List Token) : ReadFrom Token Json :=
  readOn .value [] tokens

/-- The value that a text consists of. -/
def ofText (text : String) : Except Fault Json :=
  match ofTokens (lex text) with
  | .ok (value, []) => .ok value
  | .ok _ => .error .malformed
  | .error fault => .error fault

end EstreeLowering.Json
