import EstreeLowering.Proofs.Node.Place

/-!
A malformed node of a dedicated kind is never accepted.

An object whose `type` names a dedicated kind is read as a node of that kind exactly if every field
of the kind holds what it asks for. If one does not, the first attempt at the node fails, and the
second one accepts no dedicated kind. A tree is read through each of its nodes, so a node that does
not match its kind is enough to reject the whole tree.
-/

namespace EstreeLowering

open Json (Surrounding plug)

namespace Json

/-- A name of a kind of variables, or an object with that name as its only key. -/
def IsVariableKind (value : Json) : Prop :=
  ∃ kind : VariableKind, value = .string kind.name ∨ value = .object [(kind.name, .null)] ∨
    value = .object [(kind.name, .object [])]

def IsText (value : Json) : Prop :=
  ∃ text, value = .string text

def IsFlag (value : Json) : Prop :=
  ∃ flag, value = .boolean flag

def IsRegex (value : Json) : Prop :=
  ∃ pattern flags, recordFields ["pattern", "flags"] value = some [some pattern, some flags] ∧
    pattern.IsText ∧ flags.IsText

def IsSegment (value : Json) : Prop :=
  ∃ texts tail raw cooked, recordFields ["value", "tail"] value = some [some texts, tail] ∧
    recordFields ["raw", "cooked"] texts = some [some raw, cooked] ∧ raw.IsText ∧
    (∀ text ∈ cooked, text = .null ∨ text.IsText) ∧ ∀ flag ∈ tail, flag.IsFlag

end Json

/-- What a field of that form may hold, none if it is not given. -/
def FieldForm.Admits (isNode : Json → Prop) : FieldForm → Option Json → Prop
  | .node, given => ∃ value, given = some value ∧ isNode value
  | .optionalNode, given => ∀ value ∈ given, value = .null ∨ isNode value
  | .nodes, given => ∃ items, given = some (.array items) ∧ ∀ item ∈ items, isNode item
  | .items, given =>
      ∃ items, given = some (.array items) ∧ ∀ item ∈ items, item = .null ∨ isNode item
  | .text, given => ∃ value, given = some value ∧ value.IsText
  | .optionalText, given => ∀ value ∈ given, value = .null ∨ value.IsText
  | .flag, given => ∃ value, given = some value ∧ value.IsFlag
  | .optionalFlag, given => ∀ value ∈ given, value.IsFlag
  | .variableKind, given => ∃ value, given = some value ∧ value.IsVariableKind
  | .value, given => ∃ value, given = some value
  | .regex, given => ∀ value ∈ given, value = .null ∨ value.IsRegex
  | .segments, given => ∃ items, given = some (.array items) ∧ ∀ item ∈ items, item.IsSegment

def NodeKind.Matches (kind : NodeKind) (entries : List (String × Json)) : Prop :=
  ∀ field ∈ kind.fields,
    field.2.Admits (fun value => (Node.ofJson? value).isSome) (entries.lookup field.1)

section

variable {α : Type} {reader : Json → Option α} {accepts : Json → Prop}

theorem isSome_optional? (decides : ∀ value, (reader value).isSome ↔ accepts value)
    (given : Option Json) :
    (Json.optional? reader given).isSome ↔ ∀ value ∈ given, value = .null ∨ accepts value := by
  cases given with
  | none => simp [Json.optional?]
  | some value =>
      have only : (∀ other ∈ some value, other = .null ∨ accepts other) ↔
          value = .null ∨ accepts value := by simp
      rw [only, ← decides]
      by_cases absent : value = .null
      · subst absent
        simp [Json.optional?]
      · simp [Json.optional?_of_ne_null absent, absent]

theorem isSome_bind (decides : ∀ value, (reader value).isSome ↔ accepts value)
    (given : Option Json) :
    (given.bind reader).isSome ↔ ∃ value, given = some value ∧ accepts value := by
  cases given with
  | none => simp
  | some value => simp [decides]

end

theorem isSome_text? (value : Json) : value.text?.isSome ↔ value.IsText := by
  cases value <;> simp [Json.text?, Json.IsText]

theorem isSome_flag? (value : Json) : value.flag?.isSome ↔ value.IsFlag := by
  cases value <;> simp [Json.flag?, Json.IsFlag]

theorem isSome_flagOrOff? (given : Option Json) :
    (Json.flagOrOff? given).isSome ↔ ∀ value ∈ given, value.IsFlag := by
  cases given with
  | none => simp [Json.flagOrOff?]
  | some value => simp [Json.flagOrOff?, isSome_flag?]

theorem isSome_variableKind (value : Json) :
    (VariableKind.ofJson? value).isSome ↔ value.IsVariableKind := by
  have named (name : String) :
      (VariableKind.ofName? name).isSome ↔ ∃ kind : VariableKind, name = kind.name := by
    constructor
    · intro found
      obtain ⟨kind, found⟩ := Option.isSome_iff_exists.mp found
      have same := List.find?_some found
      exact ⟨kind, (beq_iff_eq.mp same).symm⟩
    · rintro ⟨kind, rfl⟩
      cases kind <;> rfl
  unfold VariableKind.ofJson?
  split
  · simp [named, Json.IsVariableKind]
  · simp [named, Json.IsVariableKind]
  · simp [named, Json.IsVariableKind]
  · rename_i noString noNull noObject
    refine ⟨fun impossible => (nomatch impossible), ?_⟩
    rintro ⟨kind, rfl | rfl | rfl⟩
    · exact absurd rfl (noString _)
    · exact absurd rfl (noNull _)
    · exact absurd rfl (noObject _)

theorem isSome_regex (value : Json) : (RegexLiteral.ofJson? value).isSome ↔ value.IsRegex := by
  constructor
  · intro accepted
    obtain ⟨regex, accepted⟩ := Option.isSome_iff_exists.mp accepted
    obtain ⟨values, fields, accepted⟩ := Option.bind_eq_some_iff.mp accepted
    split at accepted
    · rename_i pattern flags
      obtain ⟨_, patternRead, accepted⟩ := Option.bind_eq_some_iff.mp accepted
      obtain ⟨_, flagsRead, _⟩ := Option.bind_eq_some_iff.mp accepted
      exact ⟨pattern, flags, fields,
        (isSome_text? pattern).mp (Option.isSome_of_eq_some patternRead),
        (isSome_text? flags).mp (Option.isSome_of_eq_some flagsRead)⟩
    · cases accepted
  · rintro ⟨_, _, fields, ⟨pattern, rfl⟩, flags, rfl⟩
    simp [RegexLiteral.ofJson?, fields, Json.text?]

theorem isSome_segment (value : Json) :
    (TemplateElement.ofJson? value).isSome ↔ value.IsSegment := by
  constructor
  · intro accepted
    obtain ⟨element, accepted⟩ := Option.isSome_iff_exists.mp accepted
    obtain ⟨values, fields, accepted⟩ := Option.bind_eq_some_iff.mp accepted
    split at accepted
    · rename_i texts tail
      obtain ⟨values, textFields, accepted⟩ := Option.bind_eq_some_iff.mp accepted
      split at accepted
      · rename_i raw cooked
        obtain ⟨_, rawRead, accepted⟩ := Option.bind_eq_some_iff.mp accepted
        obtain ⟨_, cookedRead, accepted⟩ := Option.bind_eq_some_iff.mp accepted
        obtain ⟨_, tailRead, _⟩ := Option.bind_eq_some_iff.mp accepted
        exact ⟨texts, tail, raw, cooked, fields, textFields,
          (isSome_text? raw).mp (Option.isSome_of_eq_some rawRead),
          (isSome_optional? isSome_text? cooked).mp (Option.isSome_of_eq_some cookedRead),
          (isSome_flagOrOff? tail).mp (Option.isSome_of_eq_some tailRead)⟩
      · cases accepted
    · cases accepted
  · rintro ⟨texts, tail, _, cooked, fields, textFields, ⟨raw, rfl⟩, cookedText, tailFlag⟩
    have cookedRead := (isSome_optional? isSome_text? cooked).mpr cookedText
    have tailRead := (isSome_flagOrOff? tail).mpr tailFlag
    obtain ⟨_, cookedRead⟩ := Option.isSome_iff_exists.mp cookedRead
    obtain ⟨_, tailRead⟩ := Option.isSome_iff_exists.mp tailRead
    simp [TemplateElement.ofJson?, fields, textFields, Json.text?, Json.optionalText?, cookedRead,
      tailRead]

theorem FieldForm.isSome_read? (read : Json → Option Node) (form : FieldForm)
    (given : Option Json) :
    (form.read? read given).isSome ↔ form.Admits (fun value => (read value).isSome) given := by
  have list {α : Type} {reader : Json → Option α} {accepts : Json → Prop}
      (decides : ∀ value, (reader value).isSome ↔ accepts value) (items : List Json) :
      (items.mapM reader).isSome ↔ ∀ item ∈ items, accepts item := by
    rw [isSome_mapM]
    exact forall₂_congr fun item _ => decides item
  cases form with
  | node => exact isSome_bind (fun _ => Iff.rfl) given
  | optionalNode => exact isSome_optional? (fun _ => Iff.rfl) given
  | text => exact isSome_bind isSome_text? given
  | optionalText => exact isSome_optional? isSome_text? given
  | flag => exact isSome_bind isSome_flag? given
  | optionalFlag => exact isSome_flagOrOff? given
  | variableKind => exact isSome_bind isSome_variableKind given
  | value => cases given <;> simp [read?, Admits]
  | regex => exact isSome_optional? isSome_regex given
  | nodes =>
      rcases given with _ | (_ | _ | _ | _ | items | _)
      case some.array => simpa [read?, Admits] using list (fun _ => Iff.rfl) items
      all_goals simp [read?, Admits]
  | items =>
      rcases given with _ | (_ | _ | _ | _ | items | _)
      case some.array =>
        have item (value : Json) : (Json.optional? read (some value)).isSome ↔
            value = .null ∨ (read value).isSome := by
          simpa using isSome_optional? (fun _ => Iff.rfl) (some value)
        simpa [read?, Admits, Json.items?] using list item items
      all_goals simp [read?, Admits]
  | segments =>
      rcases given with _ | (_ | _ | _ | _ | items | _)
      case some.array => simpa [read?, Admits] using list isSome_segment items
      all_goals simp [read?, Admits]

theorem isSome_ofGiven? {kind : NodeKind} {fields : List (FieldForm × Option Json)}
    (dedicated : kind ≠ .other) (forms : fields.map (·.1) = kind.forms) :
    (Node.ofGiven? kind fields).isSome ↔
      ∀ field ∈ fields, field.1.Admits (fun value => (Node.ofJson? value).isSome) field.2 := by
  have parts : (fields.mapM (FieldPart.read? Node.ofJson?)).isSome ↔
      ∀ field ∈ fields, field.1.Admits (fun value => (Node.ofJson? value).isSome) field.2 := by
    rw [isSome_mapM]
    refine forall₂_congr fun field _ => ?_
    rw [FieldPart.read?, Option.isSome_map, FieldForm.isSome_read?]
  rw [← parts, Node.ofGiven?]
  cases read : fields.mapM (FieldPart.read? Node.ofJson?) with
  | none => rfl
  | some parts =>
      obtain ⟨node, assembled⟩ :=
        NodeKind.exists_assemble dedicated ((forms_of_mapM read).trans forms)
      simp [assembled]

section

variable {kind : NodeKind} {entries : List (String × Json)}

theorem kind_of_ofGiven? {fields : List (FieldForm × Option Json)} {node : Node}
    (read : Node.ofGiven? kind fields = some node) : node.kind = kind := by
  obtain ⟨parts, _, assembled⟩ := Option.bind_eq_some_iff.mp read
  exact (NodeKind.kind_of_assemble assembled).1

theorem isSome_ofJson? (dedicated : kind ≠ .other)
    (distinct : (Json.object entries).DistinctKeys)
    (typed : ("type", .string kind.name) ∈ entries) :
    (Node.ofJson? (.object entries)).isSome ↔ kind.Matches entries := by
  rw [ofJson?_of_name dedicated distinct typed,
    isSome_ofGiven? dedicated (NodeKind.forms_givenBy entries kind.fields)]
  exact List.forall_mem_map

/-- An object whose `type` names a dedicated kind is read as a node of that kind exactly if its
fields match the kind. If they do not, no tree with the object in the place of a node is read. -/
theorem ofJson?_rejects_malformed (dedicated : kind ∈ NodeKind.dedicated)
    (typed : ("type", .string kind.name) ∈ entries) :
    ((Json.object entries).DistinctKeys →
      (∀ node, Node.ofJson? (.object entries) = some node → node.kind = kind) ∧
        ((Node.ofJson? (.object entries)).isSome ↔ kind.Matches entries)) ∧
      ∀ place parent, NodePlace place parent (.object entries) →
        (plug place (.object entries)).DistinctKeys → ¬ kind.Matches entries →
          Node.ofJson? (plug place (.object entries)) = none := by
  rw [NodeKind.mem_dedicated] at dedicated
  constructor
  · intro distinct
    refine ⟨fun node read => ?_, isSome_ofJson? dedicated distinct typed⟩
    rw [ofJson?_of_name dedicated distinct typed] at read
    exact kind_of_ofGiven? read
  · intro place parent standing distinct mismatch
    have distinctHere := Json.distinctKeys_of_plug distinct
    -- The tree is read through the object, which is not read here or anywhere else.
    have rejected : Node.ofJson? (.object entries) = none := by
      rw [← Option.not_isSome_iff_eq_none, isSome_ofJson? dedicated distinctHere typed]
      exact mismatch
    refine (standing.readsThrough distinct).eq_none ⟨distinctHere, Json.noConfusion, ?_⟩ rejected
    rintro rfl
    exact standing.isNodeObject

end

/-- A member access without its property. -/
theorem ofJson?_rejects_malformed_returned :
    let object : Json := .object [("name", .string "a"), ("type", .string "Identifier")]
    let access := [("object", object), ("type", .string "MemberExpression"),
      ("computed", .boolean false)]
    ("type", .string NodeKind.member.name) ∈ access ∧
      (plug returnedInChunk (.object access)).DistinctKeys ∧ ¬ NodeKind.member.Matches access ∧
      Node.ofJson? (.object access) = none ∧
      Node.ofJson? (plug returnedInChunk (.object access)) = none ∧
      (Node.ofJson? (plug returnedInChunk (.object (("property", object) :: access)))).isSome := by
  intro object access
  have typed : ("type", .string NodeKind.member.name) ∈ access := by simp [access, NodeKind.name]
  have distinct : (plug returnedInChunk (.object access)).DistinctKeys :=
    Json.distinctKeys_iff_merged.mpr rfl
  have mismatch : ¬ NodeKind.member.Matches access := by
    intro matching
    obtain ⟨property, given, _⟩ := matching ("property", .node) (by simp [NodeKind.fields])
    cases given
  obtain ⟨here, everywhere⟩ := ofJson?_rejects_malformed (by decide) typed
  have rejected := (here (Json.distinctKeys_of_plug distinct)).2.not.mpr mismatch
  exact ⟨typed, distinct, mismatch, Option.not_isSome_iff_eq_none.mp rejected,
    everywhere _ _ nodePlace_returnedInChunk distinct mismatch, rfl⟩

end EstreeLowering
