import EstreeLowering.Json.Writer
import EstreeLowering.Proofs.Json.Token

/-!
The tokens of a value are read back from its text, whatever the layout.

The blanks of a layout are lost between tokens. The one thing to see to is that a number is never
followed by what would continue it: in the tokens of a value only a comma or a closing bracket
stands behind it, if anything does.
-/

namespace EstreeLowering.Json

namespace Token

def separates : Token → Bool
  | .comma | .closeArray | .closeObject => true
  | _ => false

def MayPrecede : Token → Option Token → Prop
  | .number _, some next => next.separates = true
  | .broken _ _, _ => False
  | _, _ => True

end Token

/-- Every token stands in front of something that it may stand in front of. -/
def Spaced : List Token → Prop
  | [] => True
  | token :: rest => token.MayPrecede rest.head? ∧ Spaced rest

/-- Tokens in front of which a value may stand. -/
structure EndsValue (rest : List Token) : Prop where
  separated : ∀ next ∈ rest.head?, next.separates = true
  spaced : Spaced rest

theorem endsValue_nil : EndsValue [] :=
  ⟨(fun _ first => nomatch first), trivial⟩

theorem endsValue_cons {next : Token} {rest : List Token} (separates : next.separates = true)
    (spaced : Spaced rest) : EndsValue (next :: rest) := by
  refine ⟨fun _ first => Option.some.inj first ▸ separates, ?_, spaced⟩
  cases next with
  | comma | closeArray | closeObject => exact trivial
  | _ => cases separates

mutual

theorem spaced_tokensBefore (value : Json) (rest : List Token) (ends : EndsValue rest) :
    Spaced (value.tokensBefore rest) := by
  cases value with
  | null => exact ⟨trivial, ends.spaced⟩
  | boolean value => exact ⟨trivial, ends.spaced⟩
  | number n =>
      refine ⟨?_, ends.spaced⟩
      cases rest with
      | nil => exact trivial
      | cons next rest => exact ends.separated next rfl
  | string s => exact ⟨trivial, ends.spaced⟩
  | array items =>
      exact ⟨trivial, spaced_itemTokensBefore items _ (endsValue_cons rfl ends.spaced)⟩
  | object entries =>
      exact ⟨trivial, spaced_entryTokensBefore entries _ (endsValue_cons rfl ends.spaced)⟩

theorem spaced_itemTokensBefore (items : List Json) (rest : List Token) (ends : EndsValue rest) :
    Spaced (itemTokensBefore items rest) := by
  match items with
  | [] => exact ends.spaced
  | [item] => exact spaced_tokensBefore item rest ends
  | item :: second :: items =>
      have behind := spaced_itemTokensBefore (second :: items) rest ends
      exact spaced_tokensBefore item _ (endsValue_cons rfl behind)

theorem spaced_entryTokensBefore (entries : List (String × Json)) (rest : List Token)
    (ends : EndsValue rest) : Spaced (entryTokensBefore entries rest) := by
  match entries with
  | [] => exact ends.spaced
  | [(key, value)] => exact ⟨trivial, trivial, spaced_tokensBefore value rest ends⟩
  | (key, value) :: second :: entries =>
      have behind := spaced_entryTokensBefore (second :: entries) rest ends
      exact ⟨trivial, trivial, spaced_tokensBefore value _ (endsValue_cons rfl behind)⟩

end

theorem spaced_tokens (value : Json) : Spaced value.tokens :=
  spaced_tokensBefore value [] endsValue_nil

namespace Layout

/-- What `spread` puts behind the characters that it is given. -/
def text (layout : Layout) (depth : Nat) : List Token → List Char
  | [] => []
  | [token] => token.text
  | token :: next :: rest =>
      token.text ++ (layout.gap (depthAfter depth token) token next ++
        layout.text (depthAfter depth token) (next :: rest))

theorem spread_eq (layout : Layout) (seen : List Char) (depth : Nat) (tokens : List Token) :
    layout.spread seen depth tokens = seen.reverse ++ layout.text depth tokens := by
  induction tokens generalizing seen depth with
  | nil => rw [spread, text, List.append_nil]
  | cons token rest ih =>
      cases rest with
      | nil => simp [spread, text, List.reverseAux_eq]
      | cons next rest => simp [spread, text, ih, List.reverseAux_eq]

theorem exists_text (layout : Layout) (depth : Nat) (token : Token) (rest : List Token) :
    ∃ behind, layout.text depth (token :: rest) = token.text ++ behind := by
  cases rest with
  | nil => exact ⟨[], (List.append_nil token.text).symm⟩
  | cons next rest => exact ⟨_, rfl⟩

theorem isBlank_newline (depth : Nat) : ∀ c ∈ newline depth, isBlank c = true := by
  intro c member
  rcases List.mem_cons.mp member with rfl | space
  · rfl
  · rw [List.eq_of_mem_replicate space]
    rfl

theorem isBlank_gap (layout : Layout) (depth : Nat) (token next : Token) :
    ∀ c ∈ layout.gap depth token next, isBlank c = true := by
  intro c member
  cases layout with
  | compact => cases member
  | pretty =>
      unfold gap at member
      dsimp only at member
      repeat' split at member
      · cases member
      · exact isBlank_newline _ c member
      · exact isBlank_newline _ c member
      · exact isBlank_newline _ c member
      · rw [List.mem_singleton.mp member]
        rfl
      · cases member

end Layout

theorem endsNumber_nil : EndsNumber [] := by
  intro c first
  cases first

theorem endsNumber_separator {next : Token} (separates : next.separates = true)
    (rest : List Char) : EndsNumber (next.text ++ rest) := by
  intro c first
  cases next with
  | comma | closeArray | closeObject =>
      obtain rfl := Option.some.inj first
      decide
  | _ => cases separates

theorem endsNumber_blanks {blanks rest : List Char} (blank : ∀ c ∈ blanks, isBlank c = true)
    (ends : EndsNumber rest) : EndsNumber (blanks ++ rest) := by
  cases blanks with
  | nil => exact ends
  | cons c blanks =>
      intro d first
      obtain rfl : c = d := Option.some.inj first
      have isBlank := blank c List.mem_cons_self
      simp only [Json.isBlank, Bool.or_eq_true, beq_iff_eq] at isBlank
      rcases isBlank with ((rfl | rfl) | rfl) | rfl <;> decide

/-- A token that may precede another asks no more of the text behind it than that text gives. -/
theorem before_of_mayPrecede {token next : Token} (fits : token.MayPrecede (some next))
    {blanks : List Char} (blank : ∀ c ∈ blanks, isBlank c = true) (rest : List Char) :
    token.Before (blanks ++ (next.text ++ rest)) := by
  cases token with
  | number n => exact endsNumber_blanks blank (endsNumber_separator fits rest)
  | broken fault inString => exact fits.elim
  | _ => exact trivial

theorem lexOnto_ending {ending : List Char} (blank : ∀ c ∈ ending, isBlank c = true)
    (seen : List Token) : lexOnto seen ending = seen.reverse := by
  have read : lexOnto seen (ending ++ []) = lexOnto seen [] := lexOnto_blanks blank
  rwa [List.append_nil, lexOnto] at read

theorem lexOnto_layout (layout : Layout) {tokens : List Token} (spaced : Spaced tokens)
    {ending : List Char} (blank : ∀ c ∈ ending, isBlank c = true) (seen : List Token)
    (depth : Nat) :
    lexOnto seen (layout.text depth tokens ++ ending) = seen.reverse ++ tokens := by
  induction tokens generalizing seen depth with
  | nil => rw [Layout.text, List.nil_append, lexOnto_ending blank, List.append_nil]
  | cons token rest ih =>
      obtain ⟨fits, spacedBehind⟩ := spaced
      cases rest with
      | nil =>
          have before : token.Before ending := by
            cases token with
            | number n =>
                have ends := endsNumber_blanks blank endsNumber_nil
                rwa [List.append_nil] at ends
            | broken fault inString => exact fits.elim
            | _ => exact trivial
          rw [Layout.text, lexOnto_text before, lexOnto_ending blank, List.reverse_cons]
      | cons next rest =>
          have gap := Layout.isBlank_gap layout (Layout.depthAfter depth token) token next
          obtain ⟨behind, text⟩ := layout.exists_text (Layout.depthAfter depth token) next rest
          have before := before_of_mayPrecede fits gap (behind ++ ending)
          rw [← List.append_assoc next.text, ← text] at before
          rw [Layout.text, List.append_assoc, List.append_assoc, lexOnto_text before,
            lexOnto_blanks gap, ih spacedBehind, List.reverse_cons, List.append_assoc,
            List.singleton_append]

/-- Neither a layout nor blanks at the end change anything about the tokens of a value. -/
theorem lex_render (layout : Layout) (value : Json) {ending : String}
    (blank : ∀ c ∈ ending.toList, isBlank c = true) :
    lex (render layout value ++ ending) = value.tokens := by
  rw [lex, render, String.toList_append, String.toList_ofList, Layout.spread_eq]
  exact lexOnto_layout layout (spaced_tokens value) blank [] 0

end EstreeLowering.Json
