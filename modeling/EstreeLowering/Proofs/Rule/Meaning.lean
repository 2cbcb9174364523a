import EstreeLowering.Proofs.Rule.Template

/-!
What a template means, and that its chain of additions means the same.

An evaluator is asked for two things: a string literal is its text, and an addition evaluates its
left operand, then its right one, and joins them if one is a string. Everything else, calls and
assignments included, may mean anything and change the state of the machine in any way. A template
evaluates its substitutions from the left, each once, and joins their texts with its segments; so
does the chain, as every addition in it has a string on one side.
-/

namespace EstreeLowering

universe u v

variable {σ : Type u} {ν : Type v}

/-- A primitive value; what its numbers are is left open. -/
inductive Primitive (ν : Type v) where
  | string (text : String)
  | number (value : ν)
  | boolean (value : Bool)
  | null
  | undefined

namespace Primitive

def isString : Primitive ν → Bool
  | .string _ => true
  | _ => false

/-- The value as a string, given how numbers are written. -/
def text (numeral : ν → String) : Primitive ν → String
  | .string text => text
  | .number value => numeral value
  | .boolean true => "true"
  | .boolean false => "false"
  | .null => "null"
  | .undefined => "undefined"

/-- With a string on either side an addition joins texts. Without one it gives something, but no
string. -/
def IsSum (numeral : ν → String) (left right sum : Primitive ν) : Prop :=
  if left.isString ∨ right.isString then sum = .string (left.text numeral ++ right.text numeral)
  else sum.isString = false

end Primitive

/-- A meaning of expressions over the states of a machine. -/
structure Evaluator (numeral : ν → String) (σ : Type u) where
  eval : Node → σ → Primitive ν × σ
  string : ∀ text raw regex bigint state,
    eval (.literal (.string text) raw regex bigint) state = (.string text, state)
  addition : ∀ left right state,
    let (first, between) := eval left state
    let (second, after) := eval right between
    ∃ sum, eval (.binary "+" left right) state = (sum, after) ∧
      Primitive.IsSum numeral first second sum

namespace Evaluator

variable {numeral : ν → String} (evaluator : Evaluator numeral σ)

/-- The values of expressions that are evaluated from the left, each once and in the state that the
one before it leaves. -/
def evalAll : List Node → σ → List (Primitive ν) × σ
  | [], state => ([], state)
  | node :: nodes, state =>
      let (value, between) := evaluator.eval node state
      let (values, after) := evalAll nodes between
      (value :: values, after)

/-- The texts of expressions joined, and the state after the last of them. -/
def join (nodes : List Node) (state : σ) : String × σ :=
  let (values, after) := evaluator.evalAll nodes state
  (String.join (values.map (Primitive.text numeral)), after)

end Evaluator

/-- The text of a template whose substitutions have those values: the first segment, then each value
with the segment behind it. -/
def Template.filled (numeral : ν → String) : List TemplateElement → List (Primitive ν) → String
  | [], _ => ""
  | first :: others, values =>
      first.text ++ String.join ((values.zip others).map fun (value, quasi) =>
        value.text numeral ++ quasi.text)

namespace Evaluator

variable {numeral : ν → String} (evaluator : Evaluator numeral σ)

theorem join_nil (state : σ) : evaluator.join [] state = ("", state) := rfl

theorem join_cons (node : Node) (nodes : List Node) (state : σ) :
    evaluator.join (node :: nodes) state =
      let (value, between) := evaluator.eval node state
      let (text, after) := evaluator.join nodes between
      (value.text numeral ++ text, after) := by
  simp only [join, evalAll, List.map_cons, String.join_cons]

theorem eval_of_stringLiteral? {node : Node} {text : String}
    (isString : node.stringLiteral? = some text) (state : σ) :
    evaluator.eval node state = (.string text, state) := by
  cases node with
  | literal value raw regex bigint =>
      cases value with
      | string literal =>
          obtain rfl : literal = text := Option.some.inj isString
          exact evaluator.string _ _ _ _ _
      | _ => cases isString
  | _ => cases isString

/-- An addition that has a string on one side joins the texts of both. -/
theorem eval_addition {left right : Node} {state between after : σ} {first second : Primitive ν}
    (evalLeft : evaluator.eval left state = (first, between))
    (evalRight : evaluator.eval right between = (second, after))
    (isString : first.isString ∨ second.isString) :
    evaluator.eval (.binary "+" left right) state =
      (.string (first.text numeral ++ second.text numeral), after) := by
  have addition := evaluator.addition left right state
  simp only [evalLeft, evalRight] at addition
  obtain ⟨sum, evalSum, isSum⟩ := addition
  rw [Primitive.IsSum, if_pos isString] at isSum
  rw [evalSum, isSum]

/-- From a string on, a chain of additions joins texts. -/
theorem eval_foldl {first : Node} {state between : σ} {text : String}
    (evalFirst : evaluator.eval first state = (.string text, between)) (rest : List Node) :
    evaluator.eval (rest.foldl (.binary "+") first) state =
      let (others, after) := evaluator.join rest between
      (.string (text ++ others), after) := by
  induction rest generalizing first text between with
  | nil => simp [join_nil, evalFirst]
  | cons second rest ih =>
      cases evalSecond : evaluator.eval second between with
      | mk value after =>
          have sum := evaluator.eval_addition evalFirst evalSecond (.inl rfl)
          simp only [List.foldl_cons, ih sum, join_cons, evalSecond, Primitive.text,
            String.append_assoc]

theorem eval_sum (nodes : List Node) (state : σ) :
    evaluator.eval (Template.sum (Template.withLeadingString nodes)) state =
      let (text, after) := evaluator.join (Template.withLeadingString nodes) state
      (.string text, after) := by
  rcases Template.withLeadingString_cases nodes with
    ⟨first, rest, chain, isString⟩ | ⟨first, second, rest, chain, isString⟩
  · obtain ⟨text, literal⟩ := Option.isSome_iff_exists.mp isString
    have evalFirst := evaluator.eval_of_stringLiteral? literal state
    rw [chain, Template.sum, evaluator.eval_foldl evalFirst, join_cons, evalFirst]
    rfl
  · obtain ⟨text, literal⟩ := Option.isSome_iff_exists.mp isString
    cases evalFirst : evaluator.eval first state with
    | mk value between =>
        have evalSecond := evaluator.eval_of_stringLiteral? literal between
        have sum := evaluator.eval_addition evalFirst evalSecond (.inr rfl)
        simp only [chain, Template.sum, List.foldl_cons, evaluator.eval_foldl sum, join_cons,
          evalFirst, evalSecond, Primitive.text, String.append_assoc]

theorem join_withLeadingString (nodes : List Node) (state : σ) :
    evaluator.join (Template.withLeadingString nodes) state = evaluator.join nodes state := by
  rw [Template.withLeadingString]
  split
  · rfl
  · have empty : evaluator.eval (.stringLiteral "") state = (.string "", state) :=
      evaluator.eval_of_stringLiteral? rfl state
    simp only [join_cons, empty, Primitive.text, String.empty_append]

/-- Nothing is lost with the empty strings, which have no text and leave the state alone. -/
theorem join_nonempty (nodes : List Node) (state : σ) :
    evaluator.join (nodes.filter fun node => !Template.isEmptyString node) state =
      evaluator.join nodes state := by
  induction nodes generalizing state with
  | nil => rfl
  | cons node nodes ih =>
      cases isEmpty : Template.isEmptyString node with
      | false => simp only [List.filter_cons, isEmpty, Bool.not_false, if_true, join_cons, ih]
      | true =>
          have empty := evaluator.eval_of_stringLiteral? (eq_of_beq isEmpty) state
          simp [isEmpty, join_cons, ih, empty, Primitive.text]

theorem join_interleave {quasis : List TemplateElement} {expressions : List Node}
    (enough : quasis.length = expressions.length + 1) (state : σ) :
    evaluator.join (Template.interleave quasis expressions) state =
      let (values, after) := evaluator.evalAll expressions state
      (Template.filled numeral quasis values, after) := by
  have segment (quasi : TemplateElement) (state : σ) :
      evaluator.eval (.stringLiteral quasi.text) state = (.string quasi.text, state) :=
    evaluator.eval_of_stringLiteral? rfl state
  induction expressions generalizing quasis state with
  | nil =>
      obtain ⟨last, rfl⟩ := List.length_eq_one_iff.mp enough
      simp [Template.interleave, join_cons, join_nil, segment, evalAll, Template.filled,
        Primitive.text]
  | cons expression expressions ih =>
      obtain _ | ⟨first, _ | ⟨second, quasis⟩⟩ := quasis
      · cases enough
      · simp at enough
      · have left : (second :: quasis).length = expressions.length + 1 := by simpa using enough
        have behind := ih left (evaluator.eval expression state).2
        simp [Template.interleave, join_cons, segment, evalAll, Template.filled, Primitive.text,
          behind, String.append_assoc]

/-- The chain of additions for a template evaluates its substitutions from the left, each once, and
is the string that the template is: its segments with the texts of their values between them. -/
theorem eval_flatten {quasis : List TemplateElement} {expressions : List Node}
    (enough : quasis.length = expressions.length + 1) (state : σ) :
    evaluator.eval (Template.flatten quasis expressions) state =
      let (values, after) := evaluator.evalAll expressions state
      (.string (Template.filled numeral quasis values), after) := by
  rw [Template.flatten, eval_sum, join_withLeadingString, Template.operands, join_nonempty,
    evaluator.join_interleave enough]

/-- Names stand for how many names were met before, and nothing else but strings has a value. -/
def countNames : Node → Nat → Primitive Nat × Nat
  | .literal (.string text) _ _ _, met => (.string text, met)
  | .identifier _, met => (.number met, met + 1)
  | .binary _ left right, met =>
      let (first, between) := countNames left met
      let (second, after) := countNames right between
      if first.isString ∨ second.isString then
        (.string (first.text Nat.repr ++ second.text Nat.repr), after)
      else (.undefined, after)
  | _, met => (.undefined, met)

def counting : Evaluator Nat.repr Nat where
  eval := countNames
  string _ _ _ _ _ := rfl
  addition left right met := by
    simp only [countNames, Primitive.IsSum]
    split
    · exact ⟨_, rfl, rfl⟩
    · exact ⟨_, rfl, rfl⟩

/-- Without the string that leads it the chain would begin with a sum of numbers. -/
theorem eval_flatten_counting :
    let quasis := TemplateElement.ofTexts ["", "", "", "-"]
    let expressions : List Node := [.identifier "x", .stringLiteral "", .identifier "y"]
    quasis.length = expressions.length + 1 ∧
      counting.eval (Template.flatten quasis expressions) 0 = (.string "01-", 2) := by
  intro quasis expressions
  have enough : quasis.length = expressions.length + 1 := rfl
  exact ⟨enough, (counting.eval_flatten enough 0).trans rfl⟩

end Evaluator

end EstreeLowering
