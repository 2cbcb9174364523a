import EstreeLowering.Json.Scan

namespace EstreeLowering.Json

def hexValue? (c : Char) : Option Nat :=
  if '0' ≤ c ∧ c ≤ '9' then some (c.toNat - '0'.toNat)
  else if 'a' ≤ c ∧ c ≤ 'f' then some (c.toNat - 'a'.toNat + 10)
  else if 'A' ≤ c ∧ c ≤ 'F' then some (c.toNat - 'A'.toNat + 10)
  else none

/-- The four hexadecimal digits of a UTF-16 unit. The text ends too early only if fewer than four
bytes of it are left. -/
def scanUnit : List Char → Scan Nat
  | a :: b :: c :: d :: rest =>
      match hexValue? a, hexValue? b, hexValue? c, hexValue? d with
      | some a, some b, some c, some d => .ok (((a * 16 + b) * 16 + c) * 16 + d, rest)
      | _, _, _, _ => .error .malformed
  | few => .error (if (String.ofList few).utf8ByteSize < 4 then .endOfText else .malformed)

def isHighSurrogate (unit : Nat) : Bool :=
  0xD800 ≤ unit && unit < 0xDC00

def isLowSurrogate (unit : Nat) : Bool :=
  0xDC00 ≤ unit && unit < 0xE000

/-- The character that a pair of surrogates stands for. -/
def pairedChar (high low : Nat) : Char :=
  Char.ofNat (0x10000 + (high - 0xD800) * 0x400 + (low - 0xDC00))

/-- What follows `\u`: one unit, or two that are a high and a low surrogate. -/
def scanCodePoint (cs : List Char) : Scan Char :=
  match scanUnit cs with
  | .error fault => .error fault
  | .ok (unit, rest) =>
      if isLowSurrogate unit then .error .malformed
      else if isHighSurrogate unit then
        match rest with
        | '\\' :: 'u' :: rest =>
            match scanUnit rest with
            | .error fault => .error fault
            | .ok (low, rest) =>
                if isLowSurrogate low then .ok (pairedChar unit low, rest) else .error .malformed
        | [] | ['\\'] => .error .endOfText
        | _ => .error .malformed
      else .ok (Char.ofNat unit, rest)

/-- The character that a single letter after a backslash stands for. -/
def shortEscape? (c : Char) : Option Char :=
  if c = '"' ∨ c = '\\' ∨ c = '/' then some c
  else if c = 'b' then some '\x08'
  else if c = 'f' then some '\x0c'
  else if c = 'n' then some '\n'
  else if c = 'r' then some '\r'
  else if c = 't' then some '\t'
  else none

def scanEscape : List Char → Scan Char
  | [] => .error .endOfText
  | c :: rest =>
      if c = 'u' then scanCodePoint rest
      else match shortEscape? c with
        | some char => .ok (char, rest)
        | none => .error .malformed

theorem length_of_scanUnit {cs rest : List Char} {unit : Nat}
    (scanned : scanUnit cs = .ok (unit, rest)) : rest.length < cs.length := by
  unfold scanUnit at scanned
  split at scanned
  · split at scanned
    · simp only [Except.ok.injEq, Prod.mk.injEq] at scanned
      simp only [← scanned.2, List.length_cons]
      omega
    · cases scanned
  · cases scanned

theorem length_of_scanCodePoint {cs rest : List Char} {char : Char}
    (scanned : scanCodePoint cs = .ok (char, rest)) : rest.length < cs.length := by
  unfold scanCodePoint at scanned
  split at scanned
  · cases scanned
  · rename_i unit behind first
    have shorter := length_of_scanUnit first
    split at scanned
    · cases scanned
    · split at scanned
      · split at scanned
        · split at scanned
          · cases scanned
          · rename_i second
            have shorterStill := length_of_scanUnit second
            simp only [List.length_cons] at shorter
            split at scanned
            · simp only [Except.ok.injEq, Prod.mk.injEq] at scanned
              rw [← scanned.2]
              omega
            · cases scanned
        · cases scanned
        · cases scanned
        · cases scanned
      · simp only [Except.ok.injEq, Prod.mk.injEq] at scanned
        rw [← scanned.2]
        exact shorter

theorem length_of_scanEscape {cs rest : List Char} {char : Char}
    (scanned : scanEscape cs = .ok (char, rest)) : rest.length < cs.length := by
  unfold scanEscape at scanned
  split at scanned
  · cases scanned
  · simp only [List.length_cons]
    split at scanned
    · have shorter := length_of_scanCodePoint scanned
      omega
    · split at scanned
      · cases scanned
        omega
      · cases scanned

/-- The characters up to the closing quote, behind those of `seen`, which stand last first. -/
def scanString (seen : List Char) (cs : List Char) : Scan String :=
  match cs with
  | [] => .error .endOfText
  | c :: rest =>
      if c = '"' then .ok (String.ofList seen.reverse, rest)
      else if c = '\\' then
        match scanned : scanEscape rest with
        | .error fault => .error fault
        | .ok (char, behind) =>
            have := length_of_scanEscape scanned
            scanString (char :: seen) behind
      else if c.toNat < 0x20 then .error .malformed
      else scanString (c :: seen) rest
termination_by cs.length

theorem length_of_scanString {seen cs rest : List Char} {s : String}
    (scanned : scanString seen cs = .ok (s, rest)) : rest.length < cs.length := by
  fun_induction scanString seen cs with
  | case1 => cases scanned
  | case2 =>
      cases scanned
      simp
  | case3 => cases scanned
  | case4 seen rest char behind escaped shorter _ ih =>
      have shorterStill := ih scanned
      simp only [List.length_cons]
      omega
  | case5 => cases scanned
  | case6 seen c rest _ _ _ ih =>
      have shorter := ih scanned
      simp only [List.length_cons]
      omega

end EstreeLowering.Json
