import EstreeLowering.Json.Basic

namespace EstreeLowering.Json

/-- What was read off the front of a list, with what stands behind it. -/
abbrev ReadFrom (σ : Type) (α : Type) := Except Fault (α × List σ)

abbrev Scan (α : Type) := ReadFrom Char α

/-- Changes what was read, not what is left. -/
def mapRead (f : α → β) : ReadFrom σ α → ReadFrom σ β
  | .ok (read, rest) => .ok (f read, rest)
  | .error fault => .error fault

/-- Something more had to follow here. -/
def missing : List Char → Fault
  | [] => .endOfText
  | _ :: _ => .malformed

/-- Takes `word` off the front. -/
def expectWord : List Char → List Char → Scan Unit
  | [], rest => .ok ((), rest)
  | _ :: _, [] => .error .endOfText
  | c :: word, d :: rest => if c = d then expectWord word rest else .error .malformed

theorem exists_of_mapRead {f : α → β} {reading : ReadFrom σ α} {read : β} {rest : List σ}
    (mapped : mapRead f reading = .ok (read, rest)) : ∃ inner, reading = .ok (inner, rest) := by
  cases reading with
  | error fault => cases mapped
  | ok pair =>
      simp only [mapRead, Except.ok.injEq, Prod.mk.injEq] at mapped
      exact ⟨pair.1, by rw [← mapped.2]⟩

theorem length_of_expectWord {word cs rest : List Char}
    (taken : expectWord word cs = .ok ((), rest)) : rest.length ≤ cs.length := by
  fun_induction expectWord word cs with
  | case1 =>
      cases taken
      exact Nat.le_refl _
  | case2 => cases taken
  | case3 c word cs ih =>
      have shorter := ih taken
      simp only [List.length_cons]
      omega
  | case4 => cases taken

end EstreeLowering.Json
