import EstreeLowering.Node.Equal
import EstreeLowering.Proofs.Node.OwnData

namespace EstreeLowering

/-- The same, but for raw JSON that is equal. -/
def FieldData.Agree : FieldData → FieldData → Prop
  | .value json, .value json' => json.equal json' = true
  | data, data' => data = data'

/-- The same, but for literal values and raw JSON that are equal. -/
def NodeData.Agree : NodeData → NodeData → Prop
  | .literal value raw regex bigint, .literal value' raw' regex' bigint' =>
      value.equal value' = true ∧ raw = raw' ∧ regex = regex' ∧ bigint = bigint'
  | .other typeName fields, .other typeName' fields' =>
      typeName = typeName' ∧ List.Forall₂ (fun entry entry' =>
        entry.1 = entry'.1 ∧ entry.2.Agree entry'.2) fields fields'
  | data, data' => data = data'

def Node.Equals (node other : Node) : Prop :=
  node.equal other = true

theorem Field.sameData_iff {field other : Field} :
    field.sameData other = true ↔ field.data.Agree other.data := by
  cases field <;> cases other <;> simp [sameData, data, FieldData.Agree]

theorem sameFields_iff {fields others : List (String × Field)} :
    sameFields fields others = true ↔ List.Forall₂ (fun entry entry' : String × FieldData =>
        entry.1 = entry'.1 ∧ entry.2.Agree entry'.2)
      (fields.map fun entry => (entry.1, entry.2.data))
      (others.map fun entry => (entry.1, entry.2.data)) := by
  induction fields generalizing others with
  | nil => cases others <;> simp [sameFields]
  | cons entry fields ih =>
      cases others with
      | nil => simp [sameFields]
      | cons other others => simp [sameFields, ih, Field.sameData_iff, and_assoc]

theorem Field.length_children_of_agree {field other : Field}
    (agree : field.data.Agree other.data) : field.children.length = other.children.length := by
  cases field with
  | value json =>
      cases other with
      | value json' => rfl
      | _ => cases agree
  | _ =>
      cases other with
      | value json => cases agree
      | _ => exact length_children_eq agree

theorem length_flatMap_of_agree {fields others : List (String × Field)}
    (agree : List.Forall₂ (fun entry entry' : String × FieldData =>
        entry.1 = entry'.1 ∧ entry.2.Agree entry'.2)
      (fields.map fun entry => (entry.1, entry.2.data))
      (others.map fun entry => (entry.1, entry.2.data))) :
    (fields.flatMap fun field => field.2.children).length =
      (others.flatMap fun field => field.2.children).length := by
  induction fields generalizing others with
  | nil =>
      cases others with
      | nil => rfl
      | cons => cases agree
  | cons entry fields ih =>
      cases others with
      | nil => cases agree
      | cons other others =>
          obtain ⟨⟨_, here⟩, behind⟩ := List.forall₂_cons.mp agree
          rw [List.flatMap_cons, List.flatMap_cons, List.length_append, List.length_append,
            Field.length_children_of_agree here, ih behind]

namespace Node

variable {node other : Node}

theorem sameData_iff :
    node.sameData other = true ↔
      node.data.Agree other.data ∧ node.children.length = other.children.length := by
  cases node with
  | array elements =>
      cases other with
      | array elements' =>
          simp only [sameData, data, NodeData.Agree, children, NodeData.array.injEq, beq_iff_eq,
            length_filterMap_items]
          exact ⟨fun same => ⟨same, by rw [same]⟩, And.left⟩
      | _ => simp [sameData, data, NodeData.Agree]
  | other typeName fields =>
      cases other with
      | other typeName' fields' =>
          simp only [sameData, data, NodeData.Agree, children, Bool.and_eq_true, beq_iff_eq,
            sameFields_iff]
          exact ⟨fun same => ⟨same, length_flatMap_of_agree same.2⟩, And.left⟩
      | _ => simp [sameData, data, NodeData.Agree]
  | returnStatement argument =>
      cases other with
      | returnStatement argument' =>
          cases argument <;> cases argument' <;> simp [sameData, data, NodeData.Agree, children]
      | _ => simp [sameData, data, NodeData.Agree]
  | variableDeclarator id init =>
      cases other with
      | variableDeclarator id' init' =>
          cases init <;> cases init' <;> simp [sameData, data, NodeData.Agree, children]
      | _ => simp [sameData, data, NodeData.Agree]
  | literal =>
      cases other <;> simp [sameData, data, NodeData.Agree, children, and_assoc]
  | _ =>
      cases other <;> simp [sameData, data, NodeData.Agree, children, and_comm]

theorem equals_iff :
    node.Equals other ↔
      node.data.Agree other.data ∧ List.Forall₂ Equals node.children other.children := by
  have paired : ((node.children.attach.zip other.children).all fun pair =>
      pair.1.1.equal pair.2) = (node.children.zip other.children).all fun pair =>
        pair.1.equal pair.2 := by
    conv => rhs; rw [← List.attach_map_subtype_val node.children, ← List.map_id other.children,
      List.zip_map, List.all_map]
    rfl
  unfold Equals
  rw [equal, Bool.and_eq_true, paired, sameData_iff, List.forall₂_iff_zip, List.all_eq_true,
    and_assoc]
  simp only [Prod.forall]

theorem Equals.agree (equals : node.Equals other) : node.data.Agree other.data :=
  (equals_iff.mp equals).1

theorem Equals.children (equals : node.Equals other) :
    List.Forall₂ Equals node.children other.children :=
  (equals_iff.mp equals).2

theorem Equals.kind (equals : node.Equals other) : node.kind = other.kind := by
  have agree := equals.agree
  cases node <;> cases other <;> first | rfl | cases agree

theorem Equals.typeName (equals : node.Equals other) : node.typeName = other.typeName := by
  have kinds := equals.kind
  have agree := equals.agree
  cases node with
  | other =>
      cases other with
      | other => exact agree.1
      | _ => cases kinds
  | _ => cases other <;> first | rfl | cases kinds

theorem asString?_of_equal {value value' : LiteralValue} (equal : value.equal value' = true) :
    value.asString? = value'.asString? := by
  cases value <;> cases value' <;> simp_all [LiteralValue.equal, LiteralValue.asString?]

theorem Equals.stringLiteral? (equals : node.Equals other) :
    node.stringLiteral? = other.stringLiteral? := by
  have kinds := equals.kind
  have agree := equals.agree
  cases node with
  | literal =>
      cases other with
      | literal => exact asString?_of_equal agree.1
      | _ => cases kinds
  | _ => cases other <;> first | rfl | cases kinds

theorem equals_of_isStringLiteral (isString : node.isStringLiteral = true) : node.Equals node := by
  cases node with
  | literal value =>
      cases value with
      | string text => exact equals_iff.mpr ⟨⟨by simp [LiteralValue.equal], rfl, rfl, rfl⟩, .nil⟩
      | _ => cases isString
  | _ => cases isString

theorem equals_binary {operator : String} {left left' right right' : Node}
    (onLeft : left.Equals left') (onRight : right.Equals right') :
    (binary operator left right).Equals (binary operator left' right') :=
  equals_iff.mpr ⟨rfl, .cons onLeft (.cons onRight .nil)⟩

theorem equals_member {object object' property property' : Node} {computed optional : Bool}
    (objects : object.Equals object') (properties : property.Equals property') :
    (member object property computed optional).Equals
      (member object' property' computed optional) :=
  equals_iff.mpr ⟨rfl, .cons objects (.cons properties .nil)⟩

theorem Equals.eq_identifier {name : String} (equals : (identifier name).Equals other) :
    other = identifier name := by
  have kinds := equals.kind
  cases other with
  | identifier name' =>
      cases equals.agree
      rfl
  | _ => cases kinds

theorem Equals.exists_member {object property : Node} {computed optional : Bool}
    (equals : (member object property computed optional).Equals other) :
    ∃ object' property', other = member object' property' computed optional ∧
      object.Equals object' ∧ property.Equals property' := by
  have kinds := equals.kind
  cases other with
  | member object' property' =>
      cases equals.agree
      obtain ⟨objects, behind⟩ := List.forall₂_cons.mp equals.children
      exact ⟨object', property', rfl, objects, (List.forall₂_cons.mp behind).1⟩
  | _ => cases kinds

theorem Equals.exists_templateLiteral {quasis : List TemplateElement} {expressions : List Node}
    (equals : (templateLiteral quasis expressions).Equals other) :
    ∃ expressions', other = templateLiteral quasis expressions' ∧
      List.Forall₂ Equals expressions expressions' := by
  have kinds := equals.kind
  cases other with
  | templateLiteral _ expressions' =>
      cases equals.agree
      exact ⟨expressions', rfl, equals.children⟩
  | _ => cases kinds

/-- Equal nodes stay equal when equal nodes are put into their slots. -/
theorem Equals.withChildren {nodes nodes' : List Node} (equals : node.Equals other)
    (enough : nodes.length = node.children.length) (filled : List.Forall₂ Equals nodes nodes') :
    (node.withChildren nodes).Equals (other.withChildren nodes') := by
  have enough' : nodes'.length = other.children.length := by
    rw [← filled.length_eq, enough, equals.children.length_eq]
  rw [equals_iff, data_withChildren, data_withChildren, children_withChildren enough,
    children_withChildren enough']
  exact ⟨equals.agree, filled⟩

end Node

end EstreeLowering
