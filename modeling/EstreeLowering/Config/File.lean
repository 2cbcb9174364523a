import EstreeLowering.Json.Reader
import EstreeLowering.Json.Writer

/-!
Configuration files.

A file is checked while it is read: the first thing wrong, seen from the left, is what is reported.
It is an object of three known keys, none of them twice, or an array of their values in order.
-/

namespace EstreeLowering

/-- What a configuration file says, before its names are looked up. -/
structure ConfigFile where
  stages : Option (List String)
  disabledRules : List String
  maxDepth : Option UInt32
deriving DecidableEq

inductive ConfigKey where
  | stages
  | disabledRules
  | maxDepth
deriving DecidableEq

namespace ConfigKey

def name : ConfigKey → String
  | .stages => "stages"
  | .disabledRules => "disabledTransformers"
  | .maxDepth => "maxDepth"

/-- The keys in the order in which they are written. -/
def all : List ConfigKey :=
  [.stages, .disabledRules, .maxDepth]

end ConfigKey

namespace ConfigFile

/-- What is not said stays as the defaults have it. -/
def empty : ConfigFile :=
  ⟨none, [], none⟩

abbrev Reading (α : Type) := Json.ReadFrom Json.Token α

/-- What is wrong where a value of another type is due. A value is not read to its end for that. -/
def typeFault : List Json.Token → Fault
  | .null :: _ | .boolean _ :: _ | .number _ :: _ | .string _ :: _ => .wrongShape
  | .openArray :: _ | .openObject :: _ => .wrongShape
  | tokens => Json.valueFault tokens

/-- The strings of an array from an element on, behind those of `before`, which stand last first. -/
def readElements (before : List String) : List Json.Token → Reading (List String)
  | .string element :: .comma :: rest => readElements (element :: before) rest
  | .string element :: .closeArray :: rest => .ok ((element :: before).reverse, rest)
  | .string _ :: rest => .error (Json.punctuationFault rest)
  | tokens => .error (typeFault tokens)

def readStrings : List Json.Token → Reading (List String)
  | .openArray :: .closeArray :: rest => .ok ([], rest)
  | .openArray :: rest => readElements [] rest
  | tokens => .error (typeFault tokens)

/-- An integer of 32 bits without a sign. -/
def readDepth : List Json.Token → Reading UInt32
  | .number (.integer depth _) :: rest =>
      if 0 ≤ depth ∧ depth < UInt32.size then .ok (.ofNat depth.toNat, rest) else .error .wrongShape
  | tokens => .error (typeFault tokens)

/-- Reads the value of a key into the file. The disabled rules cannot be `null`. -/
def readValue (file : ConfigFile) (key : ConfigKey) (tokens : List Json.Token) :
    Reading ConfigFile :=
  match key, tokens with
  | .stages, .null :: rest => .ok ({ file with stages := none }, rest)
  | .stages, tokens =>
      Json.mapRead (fun names => { file with stages := some names }) (readStrings tokens)
  | .disabledRules, tokens =>
      Json.mapRead (fun names => { file with disabledRules := names }) (readStrings tokens)
  | .maxDepth, .null :: rest => .ok ({ file with maxDepth := none }, rest)
  | .maxDepth, tokens =>
      Json.mapRead (fun depth => { file with maxDepth := some depth }) (readDepth tokens)

/-- Reads the entries of an object from a key on. The key must be one of those still open, so it is
neither unknown nor repeated. -/
def readEntries (file : ConfigFile) (openKeys : List ConfigKey) (tokens : List Json.Token) :
    Reading ConfigFile :=
  match tokens with
  | .string name :: rest =>
      match found : openKeys.find? (·.name == name) with
      | none => .error .wrongShape
      | some key =>
          match rest with
          | .colon :: rest =>
              match file.readValue key rest with
              | .error fault => .error fault
              | .ok (file, .comma :: rest) =>
                  have := List.length_erase_of_mem (List.mem_of_find?_eq_some found)
                  have := List.length_pos_of_mem (List.mem_of_find?_eq_some found)
                  file.readEntries (openKeys.erase key) rest
              | .ok (file, .closeObject :: rest) => .ok (file, rest)
              | .ok (_, rest) => .error (Json.punctuationFault rest)
          | rest => .error (Json.punctuationFault rest)
  | tokens => .error (Json.keyFault tokens)
termination_by openKeys.length

/-- Reads the values of the keys in order, the last of which may be missing. Nothing may stand
behind the last one. -/
def readListed (file : ConfigFile) : List ConfigKey → List Json.Token → Reading ConfigFile
  | [], _ => .error .malformed
  | key :: keys, tokens =>
      match file.readValue key tokens with
      | .error fault => .error fault
      | .ok (file, .comma :: rest) => file.readListed keys rest
      | .ok (file, .closeArray :: rest) => .ok (file, rest)
      | .ok (_, rest) => .error (Json.punctuationFault rest)

def ofTokens : List Json.Token → Reading ConfigFile
  | .openObject :: .closeObject :: rest => .ok (empty, rest)
  | .openObject :: rest => empty.readEntries ConfigKey.all rest
  | .openArray :: .closeArray :: rest => .ok (empty, rest)
  | .openArray :: rest => empty.readListed ConfigKey.all rest
  | tokens => .error (typeFault tokens)

/-- The configuration that a text consists of. -/
def ofText (text : String) : Except Fault ConfigFile :=
  match ofTokens (Json.lex text) with
  | .ok (file, []) => .ok file
  | .ok _ => .error .malformed
  | .error fault => .error fault

def depthToJson (depth : UInt32) : Json :=
  .number (.integer depth.toNat ⟨by omega, by have := depth.toNat_lt; omega⟩)

def namesToJson (names : List String) : Json :=
  .array (names.map .string)

/-- All three keys, with `null` for what is not said. -/
def toJson (file : ConfigFile) : Json :=
  .object [
    (ConfigKey.stages.name, (file.stages.map namesToJson).getD .null),
    (ConfigKey.disabledRules.name, namesToJson file.disabledRules),
    (ConfigKey.maxDepth.name, (file.maxDepth.map depthToJson).getD .null)]

end ConfigFile

end EstreeLowering
