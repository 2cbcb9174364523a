import EstreeLowering.Proofs.Rule.Template

namespace EstreeLowering.Template

variable {quasis others front back : List TemplateElement} {expressions before behind : List Node}
  {segment : TemplateElement} {empty : Node}

/-- The parts of a template in their order: a segment, and another one behind each substitution. -/
def parts : List TemplateElement → List Node → List Node
  | [], _ => []
  | first :: quasis, expressions =>
      .stringLiteral first.text :: (expressions.zip quasis).flatMap fun (expression, quasi) =>
        [expression, .stringLiteral quasi.text]

def essential (quasis : List TemplateElement) (expressions : List Node) : List Node :=
  (parts quasis expressions).filter fun part => part.stringLiteral? ≠ some ""

/-- The node adds the others up from the left. A single one is its own sum. -/
inductive AddsUp : List Node → Node → Prop
  | single {only} : AddsUp [only] only
  | add {addends sum last} (front : AddsUp addends sum) :
      AddsUp (addends ++ [last]) (.binary "+" sum last)

theorem addsUp_foldl (first : Node) (rest : List Node) :
    AddsUp (first :: rest) (rest.foldl (.binary "+") first) := by
  induction rest using List.reverseRecOn with
  | nil => exact .single
  | append_singleton rest last ih =>
      rw [List.foldl_append, ← List.cons_append]
      exact .add ih

theorem withLeadingString_eq (nodes : List Node) :
    withLeadingString nodes =
      if ∃ node ∈ nodes.take 2, node.isStringLiteral = true then nodes
      else .stringLiteral "" :: nodes := by
  simp only [withLeadingString, List.any_eq_true]

theorem addsUp_sum (nodes : List Node) :
    AddsUp (withLeadingString nodes) (sum (withLeadingString nodes)) := by
  rcases withLeadingString_cases nodes with
    ⟨first, rest, chain, _⟩ | ⟨first, second, rest, chain, _⟩
  · rw [chain]
    exact addsUp_foldl first rest
  · rw [chain]
    exact addsUp_foldl first (second :: rest)

theorem interleave_eq_parts (alternate : quasis.length = expressions.length + 1) :
    interleave quasis expressions = parts quasis expressions := by
  induction expressions generalizing quasis with
  | nil =>
      obtain ⟨only, rfl⟩ := List.length_eq_one_iff.mp alternate
      rfl
  | cons expression expressions ih =>
      match quasis with
      | first :: second :: quasis =>
          have behind : interleave (second :: quasis) expressions =
              parts (second :: quasis) expressions := ih (by simpa using alternate)
          simp only [interleave, behind, parts, List.zip_cons_cons, List.flatMap_cons,
            List.cons_append, List.nil_append]

theorem operands_eq_essential (alternate : quasis.length = expressions.length + 1) :
    operands quasis expressions = essential quasis expressions := by
  simp only [operands, interleave_eq_parts alternate, essential, not_isEmptyString]

theorem interleave_append (paired : front.length = before.length) :
    interleave (front ++ back) (before ++ behind) =
      interleave front before ++ interleave back behind := by
  induction front generalizing before with
  | nil =>
      obtain rfl := List.length_eq_zero_iff.mp paired.symm
      rfl
  | cons quasi front ih =>
      cases before with
      | nil => cases paired
      | cons expression before =>
          simp only [List.cons_append, interleave, ih (by simpa using paired)]

theorem isEmptyString_segment (noText : segment.text = "") :
    isEmptyString (.stringLiteral segment.text) = true := by
  rw [noText]
  rfl

section

variable (noText : segment.text = "") (isEmpty : empty.stringLiteral? = some "")

include noText isEmpty

/-- A segment without text and an empty string behind it leave the operands as they are. -/
theorem operands_segment_empty (paired : front.length = before.length) :
    operands (front ++ segment :: back) (before ++ empty :: behind) =
      operands (front ++ back) (before ++ behind) := by
  have dropped : isEmptyString empty = true := isEmptyString_iff.mpr isEmpty
  have unsaid := isEmptyString_segment noText
  simp only [operands, interleave_append paired, interleave, List.filter_append,
    List.filter_cons, unsaid, dropped, Bool.not_true, Bool.false_eq_true, if_false]

/-- So do they the other way round, behind any segment. -/
theorem operands_empty_segment (paired : front.length = before.length + 1) :
    operands (front ++ segment :: back) (before ++ empty :: behind) =
      operands (front ++ back) (before ++ behind) := by
  have dropped : isEmptyString empty = true := isEmptyString_iff.mpr isEmpty
  have unsaid := isEmptyString_segment noText
  obtain ⟨front, last, rfl⟩ : ∃ init last, front = init ++ [last] :=
    ⟨_, _, (List.dropLast_append_getLast (List.ne_nil_of_length_eq_add_one paired)).symm⟩
  have paired : front.length = before.length := by simpa using paired
  simp only [List.append_assoc, List.singleton_append, operands, interleave_append paired,
    List.filter_append]
  cases behind <;>
    simp only [interleave, List.filter_cons, unsaid, dropped, Bool.not_true, Bool.false_eq_true,
      if_false]

end

theorem interleave_congr (texts : others.map TemplateElement.text =
    quasis.map TemplateElement.text) (expressions : List Node) :
    interleave others expressions = interleave quasis expressions := by
  induction quasis generalizing others expressions with
  | nil =>
      obtain rfl := List.map_eq_nil_iff.mp texts
      rfl
  | cons quasi quasis ih =>
      cases others with
      | nil => cases texts
      | cons other others =>
          obtain ⟨same, texts⟩ := List.cons.inj texts
          cases expressions <;> simp only [interleave, same, ih texts]

/-- The chain of a template is the left-nested addition of its essential parts, behind an empty
string if neither of the first two is a string. So it is the same for templates with the same
essential parts, whatever empty strings stand between them. -/
theorem flatten_canonical (alternate : quasis.length = expressions.length + 1) :
    (∃ addends, AddsUp addends (flatten quasis expressions) ∧
        addends = (if ∃ part ∈ (essential quasis expressions).take 2, part.isStringLiteral = true
          then essential quasis expressions
          else .stringLiteral "" :: essential quasis expressions) ∧
        (∀ only, addends = [only] → flatten quasis expressions = only) ∧
        ∀ addend ∈ addends.tail, addend.stringLiteral? ≠ some "") ∧
      (essential quasis expressions = [] → flatten quasis expressions = .stringLiteral "") ∧
      (∀ others substitutions, others.length = substitutions.length + 1 →
        essential others substitutions = essential quasis expressions →
          flatten others substitutions = flatten quasis expressions) ∧
      (∀ front back before behind (segment : TemplateElement) (empty : Node),
        quasis = front ++ back → expressions = before ++ behind →
        front.length = before.length ∨ front.length = before.length + 1 →
        segment.text = "" → empty.stringLiteral? = some "" →
          flatten (front ++ segment :: back) (before ++ empty :: behind) =
            flatten quasis expressions) ∧
      ∀ front segment back, quasis = front ++ segment :: back → segment.cooked = some "" →
        flatten (front ++ { segment with cooked := none } :: back) expressions =
          flatten quasis expressions := by
  have flattened {quasis : List TemplateElement} {expressions : List Node}
      (alternate : quasis.length = expressions.length + 1) :
      flatten quasis expressions = sum (withLeadingString (essential quasis expressions)) := by
    rw [flatten, operands_eq_essential alternate]
  refine ⟨⟨withLeadingString (essential quasis expressions), ?_, ?_, ?_, ?_⟩, ?_, ?_, ?_, ?_⟩
  · rw [flattened alternate]
    exact addsUp_sum _
  · exact withLeadingString_eq _
  · intro only alone
    rw [flattened alternate, alone]
    rfl
  · intro addend member
    have isPart : addend ∈ essential quasis expressions := by
      rw [withLeadingString] at member
      split at member
      · exact List.mem_of_mem_tail member
      · exact member
    simpa using (List.mem_filter.mp isPart).2
  · intro nothing
    rw [flattened alternate, nothing]
    rfl
  · intro others substitutions alternate' same
    rw [flattened alternate', flattened alternate, same]
  · intro front back before behind segment empty segments substitutions place noText isEmpty
    subst segments substitutions
    rcases place with paired | paired
    · rw [flatten, operands_segment_empty noText isEmpty paired, flatten]
    · rw [flatten, operands_empty_segment noText isEmpty paired, flatten]
  · intro front segment back segments noText
    subst segments
    have texts : (front ++ { segment with cooked := none } :: back).map TemplateElement.text =
        (front ++ segment :: back).map TemplateElement.text := by
      simp [TemplateElement.text, noText]
    rw [flatten, flatten, operands, operands, interleave_congr texts]

/-- An empty string before the last segment of a template, and no text behind it. -/
theorem flatten_canonical_padded :
    let quasis := TemplateElement.ofTexts ["", ""]
    let silent : TemplateElement := ⟨"\\u", none, false⟩
    quasis.length = [Node.identifier "x"].length + 1 ∧
      essential quasis [.identifier "x"] = [.identifier "x"] ∧
      AddsUp [.stringLiteral "", .identifier "x"] (flatten quasis [.identifier "x"]) ∧
      flatten (quasis ++ [silent]) [.identifier "x", .stringLiteral ""] =
        .binary "+" (.stringLiteral "") (.identifier "x") := by
  intro quasis silent
  have alternate : quasis.length = [Node.identifier "x"].length + 1 := rfl
  obtain ⟨⟨addends, addsUp, chain, _, _⟩, _, _, padded, _⟩ := flatten_canonical alternate
  obtain rfl : addends = [.stringLiteral "", .identifier "x"] := chain.trans rfl
  refine ⟨alternate, rfl, addsUp, ?_⟩
  have same := padded quasis [] [.identifier "x"] [] silent (.stringLiteral "") rfl rfl (.inr rfl)
    rfl rfl
  exact same.trans rfl

end EstreeLowering.Template
