import EstreeLowering.Json.ScanNumber
import EstreeLowering.Json.ScanString
import EstreeLowering.Json.Token

namespace EstreeLowering.Json

def isBlank (c : Char) : Bool :=
  c == ' ' || c == '\t' || c == '\n' || c == '\r'

def punctuation? (c : Char) : Option Token :=
  if c = '[' then some .openArray
  else if c = ']' then some .closeArray
  else if c = '\x7b' then some .openObject
  else if c = '\x7d' then some .closeObject
  else if c = ',' then some .comma
  else if c = ':' then some .colon
  else none

/-- The three words, by their first character, and what has to follow it. -/
def word? (c : Char) : Option (Token × List Char) :=
  if c = 'n' then some (.null, ['u', 'l', 'l'])
  else if c = 't' then some (.boolean true, ['r', 'u', 'e'])
  else if c = 'f' then some (.boolean false, ['a', 'l', 's', 'e'])
  else none

/-- The token that begins with `c`. -/
def scanToken (c : Char) (rest : List Char) : Scan Token :=
  match punctuation? c with
  | some token => .ok (token, rest)
  | none =>
      if c = '"' then mapRead .string (scanString [] rest)
      else if c = '-' ∨ c.isDigit then mapRead .number (scanNumber (c :: rest))
      else match word? c with
        | some (token, word) => mapRead (fun _ => token) (expectWord word rest)
        | none => .error .malformed

theorem length_of_scanToken {c : Char} {rest behind : List Char} {token : Token}
    (scanned : scanToken c rest = .ok (token, behind)) : behind.length ≤ rest.length := by
  unfold scanToken at scanned
  split at scanned
  · cases scanned
    exact Nat.le_refl _
  · split at scanned
    · obtain ⟨_, inner⟩ := exists_of_mapRead scanned
      exact Nat.le_of_lt (length_of_scanString inner)
    · split at scanned
      · obtain ⟨_, inner⟩ := exists_of_mapRead scanned
        exact Nat.le_of_lt_succ (length_of_scanNumber inner)
      · split at scanned
        · obtain ⟨_, inner⟩ := exists_of_mapRead scanned
          exact length_of_expectWord inner
        · cases scanned

/-- The tokens of `cs` behind those of `seen`, which stand last first. -/
def lexOnto (seen : List Token) (cs : List Char) : List Token :=
  match cs with
  | [] => seen.reverse
  | c :: rest =>
      if isBlank c then lexOnto seen rest
      else match scanned : scanToken c rest with
        | .ok (token, behind) =>
            have := length_of_scanToken scanned
            lexOnto (token :: seen) behind
        | .error fault => (.broken fault (c == '"') :: seen).reverse
termination_by cs.length

def lex (text : String) : List Token :=
  lexOnto [] text.toList

end EstreeLowering.Json
