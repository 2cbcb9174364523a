import EstreeLowering.Proofs.Node.Position
import EstreeLowering.Rule.Template

namespace EstreeLowering.Template

variable {quasis : List TemplateElement} {expressions nodes others : List Node} {node : Node}

theorem isEmptyString_iff : isEmptyString node = true ↔ node.stringLiteral? = some "" :=
  beq_iff_eq

theorem not_isEmptyString (node : Node) :
    (!isEmptyString node) = decide (node.stringLiteral? ≠ some "") := by
  rw [Bool.eq_iff_iff, Bool.not_eq_true', ← Bool.not_eq_true, isEmptyString_iff,
    decide_eq_true_eq]

theorem mem_interleave (member : node ∈ interleave quasis expressions) :
    node.isStringLiteral = true ∨ node ∈ expressions := by
  induction quasis generalizing expressions with
  | nil => cases member
  | cons quasi quasis ih =>
      cases expressions with
      | nil =>
          rcases List.mem_cons.mp member with rfl | later
          · exact .inl rfl
          · exact ih later
      | cons expression expressions =>
          rcases List.mem_cons.mp member with rfl | member
          · exact .inl rfl
          · rcases List.mem_cons.mp member with rfl | later
            · exact .inr List.mem_cons_self
            · exact (ih later).imp_right (List.mem_cons_of_mem expression)

theorem mem_withLeadingString (member : node ∈ withLeadingString nodes) :
    node.isStringLiteral = true ∨ node ∈ nodes := by
  unfold withLeadingString at member
  split at member
  · exact .inr member
  · rcases List.mem_cons.mp member with rfl | member
    · exact .inl rfl
    · exact .inr member

theorem mem_chain (member : node ∈ withLeadingString (operands quasis expressions)) :
    node.isStringLiteral = true ∨ node ∈ expressions := by
  rcases mem_withLeadingString member with isString | member
  · exact .inl isString
  · exact mem_interleave (List.mem_of_mem_filter member)

theorem withLeadingString_cases (nodes : List Node) :
    (∃ first rest, withLeadingString nodes = first :: rest ∧ first.isStringLiteral = true) ∨
      ∃ first second rest, withLeadingString nodes = first :: second :: rest ∧
        second.isStringLiteral = true := by
  unfold withLeadingString
  split
  · rename_i found
    match nodes with
    | [] => cases found
    | [first] => exact .inl ⟨first, [], rfl, by simpa using found⟩
    | first :: second :: rest =>
        simp only [List.take_succ_cons, List.take_zero, List.any_cons, List.any_nil, Bool.or_false,
          Bool.or_eq_true] at found
        rcases found with here | next
        · exact .inl ⟨first, second :: rest, rfl, here⟩
        · exact .inr ⟨first, second, rest, rfl, next⟩
  · exact .inl ⟨_, nodes, rfl, rfl⟩

theorem foldl_binary_cases (first : Node) (rest : List Node) :
    rest.foldl (.binary "+") first = first ∨
      ∃ left right, rest.foldl (.binary "+") first = .binary "+" left right := by
  rcases List.eq_nil_or_concat rest with rfl | ⟨init, last, rfl⟩
  · exact .inl rfl
  · refine .inr ⟨init.foldl (.binary "+") first, last, ?_⟩
    rw [List.concat_eq_append, List.foldl_append]
    rfl

/-- The result is a string literal or an addition, never one of the substitutions themselves. -/
theorem flatten_cases (quasis : List TemplateElement) (expressions : List Node) :
    (flatten quasis expressions).isStringLiteral = true ∨
      ∃ left right, flatten quasis expressions = .binary "+" left right := by
  unfold flatten
  rcases withLeadingString_cases (operands quasis expressions) with
    ⟨first, rest, chain, isString⟩ | ⟨first, second, rest, chain, _⟩
  · rw [chain, sum]
    rcases foldl_binary_cases first rest with same | addition
    · exact .inl (by rw [same, isString])
    · exact .inr addition
  · rw [chain, sum, List.foldl_cons]
    rcases foldl_binary_cases (.binary "+" first second) rest with same | addition
    · exact .inr ⟨first, second, same⟩
    · exact .inr addition

theorem interleave_take (quasis : List TemplateElement) (expressions : List Node) :
    interleave quasis (expressions.take quasis.length) = interleave quasis expressions := by
  induction quasis generalizing expressions with
  | nil => rfl
  | cons quasi quasis ih =>
      cases expressions with
      | nil => rfl
      | cons expression expressions =>
          simp only [List.length_cons, List.take_succ_cons, interleave, ih]

theorem flatten_take (quasis : List TemplateElement) (expressions : List Node) :
    flatten quasis (expressions.take quasis.length) = flatten quasis expressions := by
  simp only [flatten, operands, interleave_take]

/-- A relation that flattening carries over from the substitutions to the result. -/
structure Congruence (R : Node → Node → Prop) : Prop where
  literal : ∀ {node : Node}, node.isStringLiteral = true → R node node
  addition : ∀ {left left' right right'}, R left left' → R right right' →
    R (.binary "+" left right) (.binary "+" left' right')
  agree : ∀ {node other}, R node other → node.stringLiteral? = other.stringLiteral?

namespace Congruence

variable {R : Node → Node → Prop} (congruence : Congruence R)

include congruence

theorem forall₂_interleave (related : List.Forall₂ R nodes others) :
    List.Forall₂ R (interleave quasis nodes) (interleave quasis others) := by
  induction quasis generalizing nodes others with
  | nil => exact .nil
  | cons quasi quasis ih =>
      have segment : R (.stringLiteral quasi.text) (.stringLiteral quasi.text) :=
        congruence.literal rfl
      cases related with
      | nil => exact .cons segment (ih .nil)
      | cons here later => exact .cons segment (.cons here (ih later))

theorem forall₂_operands (related : List.Forall₂ R nodes others) :
    List.Forall₂ R (operands quasis nodes) (operands quasis others) := by
  refine List.rel_filter ?_ (congruence.forall₂_interleave related)
  intro node other same
  simp only [isEmptyString, congruence.agree same]

theorem forall₂_withLeadingString (related : List.Forall₂ R nodes others) :
    List.Forall₂ R (withLeadingString nodes) (withLeadingString others) := by
  have strings : (nodes.take 2).any Node.isStringLiteral =
      (others.take 2).any Node.isStringLiteral := by
    cases related with
    | nil => rfl
    | cons first related =>
        cases related with
        | nil => simp [Node.isStringLiteral, congruence.agree first]
        | cons second =>
            simp [Node.isStringLiteral, congruence.agree first, congruence.agree second]
  simp only [withLeadingString, strings]
  split
  · exact related
  · exact .cons (congruence.literal rfl) related

theorem related_sum (related : List.Forall₂ R nodes others) : R (sum nodes) (sum others) := by
  cases related with
  | nil => exact congruence.literal rfl
  | cons first rest =>
      have step : ∀ ⦃left left'⦄, R left left' → ∀ ⦃right right'⦄, R right right' →
          R (.binary "+" left right) (.binary "+" left' right') :=
        fun _ _ holdsLeft _ _ holdsRight => congruence.addition holdsLeft holdsRight
      exact List.rel_foldl step first rest

theorem related_flatten (related : List.Forall₂ R nodes others) :
    R (flatten quasis nodes) (flatten quasis others) :=
  congruence.related_sum
    (congruence.forall₂_withLeadingString (congruence.forall₂_operands related))

/-- Of the substitutions only those with a segment before them have to be related. -/
theorem related_flatten_map {change change' : Node → Node}
    (related : ∀ expression ∈ expressions.take quasis.length,
      R (change expression) (change' expression)) :
    R (flatten quasis (expressions.map change)) (flatten quasis (expressions.map change')) := by
  rw [← flatten_take quasis (expressions.map change),
    ← flatten_take quasis (expressions.map change'), ← List.map_take, ← List.map_take]
  apply congruence.related_flatten
  rw [List.forall₂_map_left_iff, List.forall₂_map_right_iff, List.forall₂_same]
  exact related

end Congruence

/-- Whatever holds of string literals and is kept by additions holds of a flattened template if it
holds of the substitutions. -/
theorem flatten_induction {P : Node → Prop} (quasis : List TemplateElement)
    (literal : ∀ node : Node, node.isStringLiteral = true → P node)
    (addition : ∀ left right, P left → P right → P (.binary "+" left right))
    (substitution : ∀ expression ∈ expressions, P expression) :
    P (flatten quasis expressions) := by
  have congruence : Congruence fun node other => node = other ∧ P node :=
    { literal := fun isString => ⟨rfl, literal _ isString⟩
      addition := by
        rintro left _ right _ ⟨rfl, holdsLeft⟩ ⟨rfl, holdsRight⟩
        exact ⟨rfl, addition _ _ holdsLeft holdsRight⟩
      agree := fun same => congrArg _ same.1 }
  have related : List.Forall₂ (fun node other => node = other ∧ P node) expressions expressions :=
    List.forall₂_same.mpr fun expression member => ⟨rfl, substitution expression member⟩
  exact (congruence.related_flatten related).2

section

variable {α : Type} {collect : Node → List α}
  (literal : ∀ {node : Node}, node.isStringLiteral = true → collect node = [])

include literal

theorem collect_interleave (enough : expressions.length ≤ quasis.length) :
    (interleave quasis expressions).flatMap collect = expressions.flatMap collect := by
  have segment (text : String) : collect (.stringLiteral text) = [] := literal rfl
  induction quasis generalizing expressions with
  | nil =>
      obtain rfl := List.length_eq_zero_iff.mp (Nat.le_zero.mp enough)
      rfl
  | cons quasi quasis ih =>
      cases expressions with
      | nil =>
          have behind := @ih [] (Nat.zero_le _)
          simpa [interleave, segment] using behind
      | cons expression expressions =>
          simp [interleave, segment, ih (Nat.le_of_succ_le_succ enough)]

theorem collect_of_isEmptyString (isEmpty : isEmptyString node = true) : collect node = [] := by
  apply literal
  simp only [isEmptyString, beq_iff_eq] at isEmpty
  simp [Node.isStringLiteral, isEmpty]

theorem collect_nonempty (nodes : List Node) :
    (nodes.filter fun node => !isEmptyString node).flatMap collect = nodes.flatMap collect := by
  induction nodes with
  | nil => rfl
  | cons node nodes ih =>
      cases isEmpty : isEmptyString node with
      | true => simp [isEmpty, ih, collect_of_isEmptyString literal isEmpty]
      | false => simp [isEmpty, ih]

theorem collect_withLeadingString (nodes : List Node) :
    (withLeadingString nodes).flatMap collect = nodes.flatMap collect := by
  have leading : collect (.stringLiteral "") = [] := literal rfl
  unfold withLeadingString
  split
  · rfl
  · rw [List.flatMap_cons, leading, List.nil_append]

variable (addition : ∀ left right,
  collect (.binary "+" left right) = collect left ++ collect right)

include addition

theorem collect_sum (nodes : List Node) : collect (sum nodes) = nodes.flatMap collect := by
  cases nodes with
  | nil => exact literal rfl
  | cons first rest =>
      simp only [sum, List.flatMap_cons]
      induction rest generalizing first with
      | nil => simp
      | cons second rest ih => simp [ih, addition]

/-- What is not found in string literals, and in additions on the left before it is on the right,
is found in a flattened template as in the substitutions, if each has a segment before it. -/
theorem collect_flatten (enough : expressions.length ≤ quasis.length) :
    collect (flatten quasis expressions) = expressions.flatMap collect := by
  rw [flatten, collect_sum literal addition, collect_withLeadingString literal, operands,
    collect_nonempty literal, collect_interleave literal enough]

end

variable {above kind : Option NodeKind} {depth : Nat}

/-- In a chain of additions every operand but a lone one stands below an addition. -/
theorem occurs_foldl {first : Node} {rest : List Node} (member : node ∈ first :: rest)
    (several : rest ≠ []) :
    ∃ depth, (rest.foldl (.binary "+") first).Occurs above (depth + 1) (some .binary) node := by
  induction rest using List.reverseRecOn generalizing above with
  | nil => exact absurd rfl several
  | append_singleton rest last ih =>
      rw [List.foldl_append]
      change ∃ depth, (Node.binary "+" (rest.foldl (.binary "+") first) last).Occurs above
        (depth + 1) (some .binary) node
      rw [← List.cons_append, List.mem_append, List.mem_singleton] at member
      rcases member with earlier | rfl
      · by_cases alone : rest = []
        · subst alone
          obtain rfl := List.mem_singleton.mp earlier
          exact ⟨0, .inside .leftOperand .here⟩
        · have within : ∃ depth, (rest.foldl (.binary "+") first).Occurs (some .binary) (depth + 1)
              (some .binary) node := ih earlier alone
          obtain ⟨depth, occurs⟩ := within
          exact ⟨depth + 1, .inside .leftOperand occurs⟩
      · exact ⟨0, .inside .rightOperand .here⟩

/-- The nodes of a chain of several operands are its additions, and the nodes of the operands. -/
theorem cases_of_occurs_foldl {first : Node} {rest : List Node} (several : rest ≠ [])
    (occurs : (rest.foldl (.binary "+") first).Occurs above depth kind node) :
    (∃ left right, node = .binary "+" left right) ∨
      ∃ operand ∈ first :: rest, ∃ deep < depth, operand.Occurs (some .binary) deep kind node := by
  -- From the end: the last operand stands right below the addition at the top.
  induction rest using List.reverseRecOn generalizing above depth with
  | nil => exact absurd rfl several
  | append_singleton rest last ih =>
      rw [List.foldl_append] at occurs
      change (Node.binary "+" (rest.foldl (.binary "+") first) last).Occurs above depth kind node
        at occurs
      cases occurs with
      | here => exact .inl ⟨_, _, rfl⟩
      | inside part within =>
          cases part with
          | rightOperand => exact .inr ⟨last, by simp, _, Nat.lt_succ_self _, within⟩
          | leftOperand =>
              by_cases alone : rest = []
              · subst alone
                exact .inr ⟨first, by simp, _, Nat.lt_succ_self _, within⟩
              · rcases ih alone within with addition | ⟨operand, member, deep, lower, occurs⟩
                · exact .inl addition
                · refine .inr ⟨operand, ?_, deep, Nat.lt_succ_of_lt lower, occurs⟩
                  rw [← List.cons_append]
                  exact List.mem_append_left [last] member

/-- A node of a flattened template is a string literal, an addition or a node of a substitution,
which stands deeper than it stood in the substitution. -/
theorem cases_of_occurs_flatten
    (occurs : (flatten quasis expressions).Occurs above depth kind node) :
    node.isStringLiteral = true ∨ (∃ left right, node = .binary "+" left right) ∨
      ∃ expression ∈ expressions, ∃ deep < depth,
        expression.Occurs (some .binary) deep kind node := by
  have fromOperand : ∀ operand ∈ withLeadingString (operands quasis expressions), ∀ deep < depth,
      operand.Occurs (some .binary) deep kind node → node.isStringLiteral = true ∨
        ∃ expression ∈ expressions, ∃ deep < depth,
          expression.Occurs (some .binary) deep kind node := by
    intro operand member deep lower within
    rcases mem_chain member with isString | member
    · rw [within.contains.eq_of_leaf (Node.children_of_isStringLiteral isString)]
      exact .inl isString
    · exact .inr ⟨operand, member, deep, lower, within⟩
  unfold flatten at occurs
  rcases withLeadingString_cases (operands quasis expressions) with
    ⟨first, rest, chain, isString⟩ | ⟨first, second, rest, chain, _⟩
  · rw [chain] at occurs fromOperand
    by_cases alone : rest = []
    · subst alone
      rw [occurs.contains.eq_of_leaf (Node.children_of_isStringLiteral isString)]
      exact .inl isString
    · rcases cases_of_occurs_foldl alone occurs with
        addition | ⟨operand, member, deep, lower, within⟩
      · exact .inr (.inl addition)
      · exact (fromOperand operand member deep lower within).imp_right .inr
  · rw [chain] at occurs fromOperand
    rcases cases_of_occurs_foldl (List.cons_ne_nil second rest) occurs with
      addition | ⟨operand, member, deep, lower, within⟩
    · exact .inr (.inl addition)
    · exact (fromOperand operand member deep lower within).imp_right .inr

theorem mem_interleave_of_mem (member : node ∈ expressions.take quasis.length) :
    node ∈ interleave quasis expressions := by
  induction quasis generalizing expressions with
  | nil => simp at member
  | cons quasi quasis ih =>
      cases expressions with
      | nil => simp at member
      | cons expression expressions =>
          rw [List.length_cons, List.take_succ_cons, List.mem_cons] at member
          rcases member with rfl | later
          · exact List.mem_cons_of_mem _ List.mem_cons_self
          · exact List.mem_cons_of_mem _ (List.mem_cons_of_mem _ (ih later))

theorem mem_chain_of_mem (member : node ∈ expressions.take quasis.length)
    (noString : node.isStringLiteral = false) :
    node ∈ withLeadingString (operands quasis expressions) := by
  have isOperand : node ∈ operands quasis expressions := by
    refine List.mem_filter.mpr ⟨mem_interleave_of_mem member, ?_⟩
    rw [Node.isStringLiteral, Option.isSome_eq_false_iff, Option.isNone_iff_eq_none] at noString
    simp [isEmptyString, noString]
  unfold withLeadingString
  split
  · exact isOperand
  · exact List.mem_cons_of_mem _ isOperand

theorem occurs_flatten (member : node ∈ expressions.take quasis.length)
    (noString : node.isStringLiteral = false) :
    ∃ depth, (flatten quasis expressions).Occurs above (depth + 1) (some .binary) node := by
  have isOperand := mem_chain_of_mem member noString
  unfold flatten
  rcases withLeadingString_cases (operands quasis expressions) with
    ⟨first, rest, chain, isString⟩ | ⟨first, second, rest, chain, _⟩
  · rw [chain] at isOperand ⊢
    refine occurs_foldl isOperand ?_
    rintro rfl
    rw [List.mem_singleton.mp isOperand, isString] at noString
    cases noString
  · rw [chain] at isOperand ⊢
    exact occurs_foldl isOperand (List.cons_ne_nil second rest)

end EstreeLowering.Template
