import EstreeLowering.Node.Children
import EstreeLowering.Node.Read
import EstreeLowering.Proofs.Json.Record

namespace EstreeLowering

namespace Json

theorem isNodeObject_of_lookup {entries : List (String × Json)} {typeName : String}
    (typed : entries.lookup "type" = some (.string typeName)) :
    (Json.object entries).isNodeObject = true := by
  simp only [isNodeObject, get?, typed]

theorem areNodes_iff {items : List Json} :
    areNodes items = true ↔ (∃ item ∈ items, item.isNodeObject = true) ∧
      ∀ item ∈ items, item = .null ∨ item.isNodeObject = true := by
  have isNull (value : Json) : value.isNull = true ↔ value = .null := by
    cases value <;> simp [Json.isNull]
  simp only [areNodes, Bool.and_eq_true, List.any_eq_true, List.all_eq_true, Bool.or_eq_true,
    isNull]

end Json

namespace NodeKind

variable {kind : NodeKind} {typeName : String} {tag : Json}

theorem mem_dedicated : kind ∈ dedicated ↔ kind ≠ .other := by
  cases kind <;> decide

theorem ofName?_name (dedicated : kind ≠ .other) : ofName? kind.name = some kind := by
  cases kind with
  | other => exact absurd rfl dedicated
  | _ => rfl

theorem ofName?_eq_none_iff :
    ofName? typeName = none ↔ ∀ kind ∈ dedicated, kind.name ≠ typeName := by
  rw [ofName?, List.find?_eq_none]
  simp only [beq_iff_eq, ne_eq]

/-- The tags of the forms of nodes are the names of the dedicated kinds, in the same order. -/
theorem tags_eq_map_dedicated : Node.tags = dedicated.map fun kind => (kind.name, kind) := rfl

theorem ofTag?_string (name : String) : ofTag? (.string name) = ofName? name := by
  have lookup (kinds : List NodeKind) :
      (kinds.map fun kind => (kind.name, kind)).lookup name = kinds.find? (·.name == name) := by
    induction kinds with
    | nil => rfl
    | cons kind kinds ih =>
        rw [List.map_cons, List.lookup_cons, List.find?_cons, ih, BEq.comm]
  rw [ofTag?, tags_eq_map_dedicated, lookup, ofName?]

theorem ofTag?_name (dedicated : kind ≠ .other) : ofTag? (.string kind.name) = some kind :=
  (ofTag?_string kind.name).trans (ofName?_name dedicated)

theorem ofTag?_index {index : Nat} {inRange : _} :
    ofTag? (.number (.integer index inRange)) = dedicated[index]? := by
  rw [ofTag?, if_pos (Int.natCast_nonneg index), Int.toNat_natCast, tags_eq_map_dedicated,
    List.getElem?_map, Option.map_map]
  exact Option.map_id'

theorem dedicated_of_ofTag? (tagged : ofTag? tag = some kind) : kind ≠ .other := by
  apply mem_dedicated.mp
  fun_cases ofTag? tag with
  | case1 name => exact List.mem_of_find?_eq_some (ofTag?_string name ▸ tagged)
  | case2 index inRange nonnegative =>
      obtain ⟨index, rfl⟩ := Int.eq_ofNat_of_zero_le nonnegative
      exact List.mem_of_getElem? (ofTag?_index ▸ tagged)
  | case3 index inRange negative => simp [ofTag?, negative] at tagged
  | case4 => simp [ofTag?] at tagged

end NodeKind

/-- What a field of a dedicated kind holds. -/
inductive FieldForm where
  | node
  | optionalNode
  | nodes
  | items
  | text
  | optionalText
  | flag
  | optionalFlag
  | variableKind
  | value
  | regex
  | segments

abbrev FieldForm.Content : FieldForm → Type
  | .node => Node
  | .optionalNode => Option Node
  | .nodes => List Node
  | .items => List (Option Node)
  | .text => String
  | .optionalText => Option String
  | .flag | .optionalFlag => Bool
  | .variableKind => VariableKind
  | .value => LiteralValue
  | .regex => Option RegexLiteral
  | .segments => List TemplateElement

def FieldForm.read? (read : Json → Option Node) :
    (form : FieldForm) → Option Json → Option form.Content
  | .node, given => given.bind read
  | .optionalNode, given => Json.optional? read given
  | .nodes, some (.array values) => values.mapM read
  | .items, some (.array values) => Json.items? read values
  | .text, given => given.bind Json.text?
  | .optionalText, given => Json.optionalText? given
  | .flag, given => given.bind Json.flag?
  | .optionalFlag, given => Json.flagOrOff? given
  | .variableKind, given => given.bind VariableKind.ofJson?
  | .value, given => given.map LiteralValue.ofJson
  | .regex, given => Json.optional? RegexLiteral.ofJson? given
  | .segments, some (.array values) => values.mapM TemplateElement.ofJson?
  | _, _ => none

structure FieldPart where
  form : FieldForm
  content : form.Content

def FieldPart.nodes : FieldPart → List Node
  | ⟨.node, node⟩ => [node]
  | ⟨.optionalNode, node⟩ => node.toList
  | ⟨.nodes, nodes⟩ => nodes
  | ⟨.items, items⟩ => items.filterMap id
  | _ => []

def FieldPart.read? (read : Json → Option Node) (field : FieldForm × Option Json) :
    Option FieldPart :=
  (field.1.read? read field.2).map (FieldPart.mk field.1)

namespace NodeKind

def fields : NodeKind → List (String × FieldForm)
  | .program => [("body", .nodes), ("sourceType", .optionalText)]
  | .expressionStatement => [("expression", .node)]
  | .blockStatement => [("body", .nodes)]
  | .returnStatement => [("argument", .optionalNode)]
  | .variableDeclaration => [("declarations", .nodes), ("kind", .variableKind)]
  | .variableDeclarator => [("id", .node), ("init", .optionalNode)]
  | .identifier => [("name", .text)]
  | .privateIdentifier => [("name", .text)]
  | .literal =>
      [("value", .value), ("raw", .optionalText), ("regex", .regex), ("bigint", .optionalText)]
  | .templateLiteral => [("quasis", .segments), ("expressions", .nodes)]
  | .taggedTemplate => [("tag", .node), ("quasi", .node)]
  | .member =>
      [("object", .node), ("property", .node), ("computed", .flag), ("optional", .optionalFlag)]
  | .binary => [("operator", .text), ("left", .node), ("right", .node)]
  | .assignment => [("operator", .text), ("left", .node), ("right", .node)]
  | .call => [("callee", .node), ("arguments", .nodes), ("optional", .optionalFlag)]
  | .array => [("elements", .items)]
  | .conditional => [("test", .node), ("consequent", .node), ("alternate", .node)]
  | .other => []

def forms (kind : NodeKind) : List FieldForm :=
  kind.fields.map (·.2)

theorem names_fields (kind : NodeKind) : kind.fields.map (·.1) = kind.fieldNames := by
  cases kind <;> rfl

theorem nodup_fieldNames (kind : NodeKind) : kind.fieldNames.Nodup := by
  cases kind <;> decide

theorem type_not_mem_fieldNames (kind : NodeKind) : "type" ∉ kind.fieldNames := by
  cases kind <;> decide

/-- The node of a dedicated kind with those parts. -/
def assemble : NodeKind → List FieldPart → Option Node
  | .program, [⟨.nodes, body⟩, ⟨.optionalText, sourceType⟩] => some (.program body sourceType)
  | .expressionStatement, [⟨.node, expression⟩] => some (.expressionStatement expression)
  | .blockStatement, [⟨.nodes, body⟩] => some (.blockStatement body)
  | .returnStatement, [⟨.optionalNode, argument⟩] => some (.returnStatement argument)
  | .variableDeclaration, [⟨.nodes, declarations⟩, ⟨.variableKind, kind⟩] =>
      some (.variableDeclaration declarations kind)
  | .variableDeclarator, [⟨.node, id⟩, ⟨.optionalNode, init⟩] => some (.variableDeclarator id init)
  | .identifier, [⟨.text, name⟩] => some (.identifier name)
  | .privateIdentifier, [⟨.text, name⟩] => some (.privateIdentifier name)
  | .literal, [⟨.value, value⟩, ⟨.optionalText, raw⟩, ⟨.regex, regex⟩, ⟨.optionalText, bigint⟩] =>
      some (.literal value raw regex bigint)
  | .templateLiteral, [⟨.segments, quasis⟩, ⟨.nodes, expressions⟩] =>
      some (.templateLiteral quasis expressions)
  | .taggedTemplate, [⟨.node, tag⟩, ⟨.node, quasi⟩] => some (.taggedTemplate tag quasi)
  | .member, [⟨.node, object⟩, ⟨.node, property⟩, ⟨.flag, computed⟩, ⟨.optionalFlag, optional⟩] =>
      some (.member object property computed optional)
  | .binary, [⟨.text, operator⟩, ⟨.node, left⟩, ⟨.node, right⟩] =>
      some (.binary operator left right)
  | .assignment, [⟨.text, operator⟩, ⟨.node, left⟩, ⟨.node, right⟩] =>
      some (.assignment operator left right)
  | .call, [⟨.node, callee⟩, ⟨.nodes, arguments⟩, ⟨.optionalFlag, optional⟩] =>
      some (.call callee arguments optional)
  | .array, [⟨.items, elements⟩] => some (.array elements)
  | .conditional, [⟨.node, test⟩, ⟨.node, consequent⟩, ⟨.node, alternate⟩] =>
      some (.conditional test consequent alternate)
  | _, _ => none

variable {kind : NodeKind} {parts : List FieldPart} {node : Node}

theorem kind_of_assemble (assembled : kind.assemble parts = some node) :
    node.kind = kind ∧ node.children = parts.flatMap FieldPart.nodes := by
  unfold assemble at assembled
  split at assembled <;> cases assembled <;> simp [Node.kind, Node.children, FieldPart.nodes]

theorem exists_assemble (dedicated : kind ≠ .other) (forms : parts.map (·.form) = kind.forms) :
    ∃ node, kind.assemble parts = some node := by
  cases kind <;>
    simp only [NodeKind.forms, fields, List.map_cons, List.map_nil, List.map_eq_cons_iff,
      List.map_eq_nil_iff] at forms
  case other => exact absurd rfl dedicated
  case expressionStatement | blockStatement | returnStatement | identifier | privateIdentifier
      | array =>
      obtain ⟨⟨_, _⟩, _, rfl, rfl, rfl⟩ := forms
      exact ⟨_, rfl⟩
  case program | variableDeclaration | variableDeclarator | templateLiteral | taggedTemplate =>
      obtain ⟨⟨_, _⟩, _, rfl, rfl, ⟨_, _⟩, _, rfl, rfl, rfl⟩ := forms
      exact ⟨_, rfl⟩
  case binary | assignment | call | conditional =>
      obtain ⟨⟨_, _⟩, _, rfl, rfl, ⟨_, _⟩, _, rfl, rfl, ⟨_, _⟩, _, rfl, rfl, rfl⟩ := forms
      exact ⟨_, rfl⟩
  case literal | member =>
      obtain ⟨⟨_, _⟩, _, rfl, rfl, ⟨_, _⟩, _, rfl, rfl, ⟨_, _⟩, _, rfl, rfl, ⟨_, _⟩, _, rfl, rfl,
        rfl⟩ := forms
      exact ⟨_, rfl⟩

end NodeKind

section

variable {kind : NodeKind} {values : List (Option Json)}

theorem bind_read?_cons {α : Type} {read : Json → Option Node} (field : FieldForm × Option Json)
    (fields : List (FieldForm × Option Json)) (use : List FieldPart → Option α) :
    ((field :: fields).mapM (FieldPart.read? read)).bind use =
      (field.1.read? read field.2).bind fun content =>
        (fields.mapM (FieldPart.read? read)).bind fun parts =>
          use (⟨field.1, content⟩ :: parts) := by
  rw [List.mapM_cons]
  simp only [FieldPart.read?, Option.bind_eq_bind, Option.pure_def, Option.bind_assoc,
    Option.bind_map, Function.comp_def, Option.bind_some]

/-- Reading the fields of a kind is reading each of them and putting the parts together. -/
theorem ofFields?_eq (read : Json → Option Node)
    (lengths : values.length = kind.fieldNames.length) :
    Node.ofFields? read kind values =
      ((kind.forms.zip values).mapM (FieldPart.read? read)).bind kind.assemble := by
  -- Once it is known what stands where a list or a required field has to be, one equation applies.
  cases kind <;>
    simp only [NodeKind.fieldNames, NodeKind.forms, NodeKind.fields, List.map_cons,
      List.map_nil] at lengths ⊢
  case other =>
      obtain rfl := List.length_eq_zero_iff.mp lengths
      rfl
  case expressionStatement | identifier | privateIdentifier =>
      obtain ⟨given, rfl⟩ := List.length_eq_one_iff.mp lengths
      cases given <;> simp only [List.zip_cons_cons, bind_read?_cons, FieldForm.read?] <;> rfl
  case returnStatement =>
      obtain ⟨argument, rfl⟩ := List.length_eq_one_iff.mp lengths
      simp only [List.zip_cons_cons, bind_read?_cons, FieldForm.read?]
      rfl
  case blockStatement | array =>
      obtain ⟨given, rfl⟩ := List.length_eq_one_iff.mp lengths
      rcases given with _ | (_ | _ | _ | _ | items | _) <;>
        simp only [List.zip_cons_cons, bind_read?_cons, FieldForm.read?] <;> rfl
  case program =>
      obtain ⟨body, sourceType, rfl⟩ := List.length_eq_two.mp lengths
      rcases body with _ | (_ | _ | _ | _ | body | _) <;>
        simp only [List.zip_cons_cons, bind_read?_cons, FieldForm.read?] <;> rfl
  case variableDeclaration =>
      obtain ⟨declarations, kind, rfl⟩ := List.length_eq_two.mp lengths
      rcases declarations with _ | (_ | _ | _ | _ | declarations | _) <;> cases kind <;>
        simp only [List.zip_cons_cons, bind_read?_cons, FieldForm.read?, Option.bind_none,
          Option.bind_fun_none] <;> rfl
  case variableDeclarator =>
      obtain ⟨id, init, rfl⟩ := List.length_eq_two.mp lengths
      cases id <;> simp only [List.zip_cons_cons, bind_read?_cons, FieldForm.read?] <;> rfl
  case taggedTemplate =>
      obtain ⟨tag, quasi, rfl⟩ := List.length_eq_two.mp lengths
      cases tag <;> cases quasi <;>
        simp only [List.zip_cons_cons, bind_read?_cons, FieldForm.read?, Option.bind_none,
          Option.bind_fun_none] <;> rfl
  case templateLiteral =>
      obtain ⟨quasis, expressions, rfl⟩ := List.length_eq_two.mp lengths
      rcases quasis with _ | (_ | _ | _ | _ | quasis | _) <;>
        rcases expressions with _ | (_ | _ | _ | _ | expressions | _) <;>
        simp only [List.zip_cons_cons, bind_read?_cons, FieldForm.read?, Option.bind_none,
          Option.bind_fun_none] <;> rfl
  case binary | assignment | conditional =>
      obtain ⟨first, second, third, rfl⟩ := List.length_eq_three.mp lengths
      cases first <;> cases second <;> cases third <;>
        simp only [List.zip_cons_cons, bind_read?_cons, FieldForm.read?, Option.bind_none,
          Option.bind_fun_none] <;> rfl
  case call =>
      obtain ⟨callee, arguments, optional, rfl⟩ := List.length_eq_three.mp lengths
      rcases arguments with _ | (_ | _ | _ | _ | arguments | _) <;> cases callee <;>
        simp only [List.zip_cons_cons, bind_read?_cons, FieldForm.read?, Option.bind_none,
          Option.bind_fun_none] <;> rfl
  case literal =>
      obtain ⟨value, others, rfl⟩ := List.exists_cons_of_length_eq_add_one lengths
      obtain ⟨raw, regex, bigint, rfl⟩ := List.length_eq_three.mp (Nat.succ.inj lengths)
      cases value <;> simp only [List.zip_cons_cons, bind_read?_cons, FieldForm.read?] <;> rfl
  case member =>
      obtain ⟨object, others, rfl⟩ := List.exists_cons_of_length_eq_add_one lengths
      obtain ⟨property, computed, optional, rfl⟩ := List.length_eq_three.mp (Nat.succ.inj lengths)
      cases object <;> cases property <;> cases computed <;>
        simp only [List.zip_cons_cons, bind_read?_cons, FieldForm.read?, Option.bind_none,
          Option.bind_fun_none] <;> rfl

end

end EstreeLowering
