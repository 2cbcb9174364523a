import EstreeLowering.Json.Basic

namespace EstreeLowering.Json

/-- The values of the fields of those names. A name given twice is refused; other names mean
nothing. -/
def namedFields (names : List String) (entries : List (String × Json)) :
    Option (List (Option Json)) :=
  names.mapM fun name =>
    match entries.filter (·.1 == name) with
    | [] => some none
    | [entry] => some (some entry.2)
    | _ => none

/-- The same for values given in the order of the names, from which the last may be missing. -/
def listedFields (names : List String) (items : List Json) : Option (List (Option Json)) :=
  if items.length ≤ names.length then
    some (items.map some ++ List.replicate (names.length - items.length) none)
  else none

/-- The fields of an object by name, those of an array by order. -/
def recordFields (names : List String) : Json → Option (List (Option Json))
  | .object entries => namedFields names entries
  | .array items => listedFields names items
  | _ => none

def text? : Json → Option String
  | .string text => some text
  | _ => none

def flag? : Json → Option Bool
  | .boolean flag => some flag
  | _ => none

/-- A field that may be absent or `null`. -/
def optional? (read : Json → Option α) : Option Json → Option (Option α)
  | none | some .null => some none
  | some value => (read value).map some

def optionalText? : Option Json → Option (Option String) :=
  optional? text?

/-- A flag that is off when absent. -/
def flagOrOff? : Option Json → Option Bool
  | none => some false
  | some value => value.flag?

/-- A list in which `null` stands for a hole. -/
def items? (read : Json → Option α) (items : List Json) : Option (List (Option α)) :=
  items.mapM fun item => optional? read (some item)

/-- The entries of the fields that are there. -/
def presentEntries (names : List String) (values : List (Option Json)) : List (String × Json) :=
  (names.zip values).filterMap fun (name, value) => value.map (name, ·)

/-- The string, or `null`. -/
def textOrNull : Option String → Json
  | some text => .string text
  | none => .null

end EstreeLowering.Json
