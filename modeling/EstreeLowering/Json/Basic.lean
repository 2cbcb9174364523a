import EstreeLowering.Binary64.Basic

namespace EstreeLowering

/-- Why a text or a value was not accepted. -/
inductive Fault where
  | endOfText
  | malformed
  | wrongShape
deriving DecidableEq, Repr

namespace Json

/-- A number is an integer that a signed or an unsigned 64-bit word holds, or a finite
double-precision number; the two never mix. -/
inductive Number where
  | integer (value : Int) (inRange : -0x8000000000000000 ≤ value ∧ value < 0x10000000000000000)
  | real (value : Binary64.Finite)
deriving DecidableEq

namespace Number

def ofInt? (n : Int) : Option Number :=
  if inRange : -0x8000000000000000 ≤ n ∧ n < 0x10000000000000000 then some (.integer n inRange)
  else none

/-- An integer never equals a double-precision number. -/
def equal : Number → Number → Bool
  | .integer m _, .integer n _ => m == n
  | .real x, .real y => x.equal y
  | _, _ => false

end Number

end Json

/-- A JSON value. An object keeps its entries in order, repeated keys included: some readers refuse
a repeated key and others let the last value win, which `merged` does once and for all. -/
inductive Json where
  | null
  | boolean (value : Bool)
  | number (value : Json.Number)
  | string (value : String)
  | array (items : List Json)
  | object (entries : List (String × Json))

namespace Json

instance : Inhabited Json := ⟨.null⟩

/-- Gives `key` a value: in its place if it has one, else at the end. -/
def put (key : String) (value : α) : List (String × α) → List (String × α)
  | [] => [(key, value)]
  | (k, v) :: rest => if k = key then (k, value) :: rest else (k, v) :: put key value rest

/-- Each key once, with its last value in its first place. -/
def mergeKeys (entries : List (String × α)) : List (String × α) :=
  entries.foldl (fun merged entry => put entry.1 entry.2 merged) []

mutual

/-- The value with the repeated keys of every object in it merged. -/
def merged : Json → Json
  | .array items => .array (mergedItems items)
  | .object entries => .object (mergeKeys (mergedEntries entries))
  | value => value

def mergedItems : List Json → List Json
  | [] => []
  | item :: items => item.merged :: mergedItems items

def mergedEntries : List (String × Json) → List (String × Json)
  | [] => []
  | (key, value) :: entries => (key, value.merged) :: mergedEntries entries

end

mutual

/-- The number of arrays and objects around the most deeply nested value, itself included. -/
def height : Json → Nat
  | .array items => heightOfItems items + 1
  | .object entries => heightOfEntries entries + 1
  | _ => 0

def heightOfItems : List Json → Nat
  | [] => 0
  | item :: items => max item.height (heightOfItems items)

def heightOfEntries : List (String × Json) → Nat
  | [] => 0
  | (_, value) :: entries => max value.height (heightOfEntries entries)

end

mutual

/-- Equality of values, for objects without regard to the order of the keys. -/
def equal : Json → Json → Bool
  | .null, .null => true
  | .boolean a, .boolean b => a == b
  | .number m, .number n => m.equal n
  | .string s, .string t => s == t
  | .array xs, .array ys => equalItems xs ys
  | .object xs, .object ys => xs.length == ys.length && equalEntries xs ys
  | _, _ => false

def equalItems : List Json → List Json → Bool
  | [], [] => true
  | x :: xs, y :: ys => x.equal y && equalItems xs ys
  | _, _ => false

/-- Every entry has an equal one under its key in `others`. -/
def equalEntries : List (String × Json) → List (String × Json) → Bool
  | [], _ => true
  | (key, x) :: entries, others =>
      (match others.lookup key with
        | some y => x.equal y
        | none => false) && equalEntries entries others

end

def isNull : Json → Bool
  | .null => true
  | _ => false

/-- The value under `key` if this is an object. -/
def get? (key : String) : Json → Option Json
  | .object entries => entries.lookup key
  | _ => none

end Json

end EstreeLowering
