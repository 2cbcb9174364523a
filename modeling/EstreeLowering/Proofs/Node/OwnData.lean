import EstreeLowering.Node.Build
import EstreeLowering.Node.Write
import EstreeLowering.Proofs.Data.Optional
import EstreeLowering.Proofs.Json.Nesting
import EstreeLowering.Proofs.Node.Slots

namespace EstreeLowering

/-- A field without its nodes: of a list remains where it holds a node and where a hole. -/
inductive FieldData where
  | node
  | nodes (held : List Bool)
  | value (value : Json)

/-- A node without its children. -/
inductive NodeData where
  | program (sourceType : Option String)
  | expressionStatement
  | blockStatement
  | returnStatement
  | variableDeclaration (kind : VariableKind)
  | variableDeclarator
  | identifier (name : String)
  | privateIdentifier (name : String)
  | literal (value : LiteralValue) (raw : Option String) (regex : Option RegexLiteral)
      (bigint : Option String)
  | templateLiteral (quasis : List TemplateElement)
  | taggedTemplate
  | member (computed : Bool) (optional : Bool)
  | binary (operator : String)
  | assignment (operator : String)
  | call (optional : Bool)
  | array (held : List Bool)
  | conditional
  | other (typeName : String) (fields : List (String × FieldData))

def Field.data : Field → FieldData
  | .node _ => .node
  | .nodes items => .nodes (items.map Option.isSome)
  | .value json => .value json

def Node.data : Node → NodeData
  | .program _ sourceType => .program sourceType
  | .expressionStatement _ => .expressionStatement
  | .blockStatement _ => .blockStatement
  | .returnStatement _ => .returnStatement
  | .variableDeclaration _ kind => .variableDeclaration kind
  | .variableDeclarator _ _ => .variableDeclarator
  | .identifier name => .identifier name
  | .privateIdentifier name => .privateIdentifier name
  | .literal value raw regex bigint => .literal value raw regex bigint
  | .templateLiteral quasis _ => .templateLiteral quasis
  | .taggedTemplate _ _ => .taggedTemplate
  | .member _ _ computed optional => .member computed optional
  | .binary operator _ _ => .binary operator
  | .assignment operator _ _ => .assignment operator
  | .call _ _ optional => .call optional
  | .array elements => .array (elements.map Option.isSome)
  | .conditional _ _ _ => .conditional
  | .other typeName fields => .other typeName (fields.map fun entry => (entry.1, entry.2.data))

theorem isSome_fillItems (items : List (Option Node)) (nodes : List Node) :
    (fillItems items nodes).1.map Option.isSome = items.map Option.isSome := by
  induction items generalizing nodes with
  | nil => rfl
  | cons item items ih =>
      cases item with
      | none => simp only [fillItems, List.map_cons, ih]
      | some held =>
          cases nodes with
          | nil => rfl
          | cons node nodes => simp only [fillItems, List.map_cons, ih, Option.isSome_some]

theorem Field.data_fill (field : Field) (nodes : List Node) :
    (field.fill nodes).1.data = field.data := by
  cases field with
  | node held => cases nodes <;> rfl
  | nodes items => simp only [fill, data, isSome_fillItems]
  | value json => rfl

theorem data_fillFields (fields : List (String × Field)) (nodes : List Node) :
    (fillFields fields nodes).map (fun entry => (entry.1, entry.2.data)) =
      fields.map fun entry => (entry.1, entry.2.data) := by
  induction fields generalizing nodes with
  | nil => rfl
  | cons entry fields ih => simp only [fillFields, List.map_cons, Field.data_fill, ih]

@[simp] theorem Node.data_withChildren (node : Node) (nodes : List Node) :
    (node.withChildren nodes).data = node.data := by
  unfold withChildren
  split <;> simp only [data, isSome_fillItems, data_fillFields]

theorem length_filterMap_items (items : List (Option Node)) :
    (items.filterMap id).length = (items.map Option.isSome).count true := by
  induction items with
  | nil => rfl
  | cons item items ih =>
      cases item with
      | none => exact ih
      | some held =>
          rw [List.filterMap_cons, List.map_cons, Option.isSome_some, List.count_cons_self]
          exact congrArg Nat.succ ih

theorem items_ext {items others : List (Option Node)}
    (held : items.map Option.isSome = others.map Option.isSome)
    (nodes : items.filterMap id = others.filterMap id) : items = others := by
  induction items generalizing others with
  | nil => exact (List.map_eq_nil_iff.mp held.symm).symm
  | cons item items ih =>
      match others with
      | [] => cases held
      | other :: others =>
          obtain ⟨first, behind⟩ := List.cons.inj held
          match item, other with
          | none, none => rw [ih behind nodes]
          | some node, some node' =>
              obtain ⟨same, later⟩ := List.cons.inj nodes
              rw [ih behind later, same]
          | none, some _ => cases first
          | some _, none => cases first

theorem Field.length_children_eq {field other : Field} (data : field.data = other.data) :
    field.children.length = other.children.length := by
  cases field with
  | nodes items =>
      cases other with
      | nodes items' =>
          rw [children, children, length_filterMap_items, length_filterMap_items,
            FieldData.nodes.inj data]
      | _ => cases data
  | _ =>
      cases other <;> cases data
      rfl

theorem Field.ext_of_data {field other : Field} (data : field.data = other.data)
    (children : field.children = other.children) : field = other := by
  cases field with
  | node held =>
      cases other with
      | node held' => rw [List.singleton_inj.mp children]
      | _ => cases data
  | nodes items =>
      cases other with
      | nodes items' => rw [items_ext (FieldData.nodes.inj data) children]
      | _ => cases data
  | value json =>
      cases other with
      | value json' => rw [FieldData.value.inj data]
      | _ => cases data

theorem fields_ext {fields others : List (String × Field)}
    (data : fields.map (fun entry => (entry.1, entry.2.data)) =
      others.map fun entry => (entry.1, entry.2.data))
    (children : (fields.flatMap fun field => field.2.children) =
      others.flatMap fun field => field.2.children) : fields = others := by
  induction fields generalizing others with
  | nil => exact (List.map_eq_nil_iff.mp data.symm).symm
  | cons entry fields ih =>
      match others with
      | [] => cases data
      | other :: others =>
          obtain ⟨first, later⟩ := List.cons.inj data
          obtain ⟨key, own⟩ := Prod.mk.inj first
          -- As the fields have equally many slots, the children divide alike.
          obtain ⟨here, behind⟩ := List.append_inj children (Field.length_children_eq own)
          rw [ih later behind, Prod.ext key (Field.ext_of_data own here)]

/-- A node is what it holds of its own and its children. -/
theorem Node.ext_of_data {node other : Node} (data : node.data = other.data)
    (children : node.children = other.children) : node = other := by
  cases node with
  | array elements =>
      cases other with
      | array elements' => rw [items_ext (NodeData.array.inj data) children]
      | _ => cases data
  | other typeName fields =>
      cases other with
      | other typeName' fields' =>
          obtain ⟨name, own⟩ := NodeData.other.inj data
          rw [name, fields_ext own children]
      | _ => cases data
  | returnStatement argument =>
      cases other with
      | returnStatement argument' => rw [toList_inj.mp children]
      | _ => cases data
  | variableDeclarator id init =>
      cases other with
      | variableDeclarator id' init' =>
          obtain ⟨declared, initial⟩ := List.cons.inj children
          rw [declared, toList_inj.mp initial]
      | _ => cases data
  | _ =>
      cases other <;> cases data
      cases children
      rfl

namespace Node

variable {node written : Node} {index : Nat}

theorem setChild?_eq_some_iff {child : Node} :
    node.setChild? index child = some written ↔
      index < node.children.length ∧
        node.withChildren (node.children.set index child) = written := by
  unfold setChild?
  split <;> simp [*]

theorem children_of_setChild? {child : Node} (set : node.setChild? index child = some written) :
    written.children = node.children.set index child := by
  obtain ⟨_, rfl⟩ := setChild?_eq_some_iff.mp set
  exact children_withChildren_set node index child

theorem setChild?_self {child : Node} (found : node.children[index]? = some child) :
    node.setChild? index child = some node := by
  obtain ⟨bound, _⟩ := List.getElem?_eq_some_iff.mp found
  exact setChild?_eq_some_iff.mpr ⟨bound, withChildren_set_self found⟩

/-- What is written later into a slot does not depend on what was written there before. -/
theorem setChild?_setChild? {child : Node} (set : node.setChild? index child = some written)
    (later : Node) : written.setChild? index later = node.setChild? index later := by
  obtain ⟨bound, rfl⟩ := setChild?_eq_some_iff.mp set
  simp only [setChild?, children_withChildren_set, List.length_set, withChildren_set_set]

theorem setChild?_comm {other : Nat} (apart : index ≠ other) (child later : Node) :
    (node.setChild? index child).bind (setChild? · other later) =
      (node.setChild? other later).bind (setChild? · index child) := by
  by_cases bound : index < node.children.length
  · by_cases bound' : other < node.children.length
    · simp only [setChild?, bound, bound', if_true, Option.bind_some, children_withChildren_set,
        List.length_set]
      rw [withChildren_withChildren List.length_set (by simp),
        withChildren_withChildren List.length_set (by simp), List.set_comm _ _ apart]
    · simp [setChild?, bound, bound', children_withChildren_set]
  · by_cases bound' : other < node.children.length <;>
      simp [setChild?, bound, bound', children_withChildren_set]

end Node

/-- The items of a list: the given values in their order where nodes stand, `null` for a hole. -/
inductive WritesItems : List Bool → List Json → List Json → Prop
  | nil : WritesItems [] [] []
  | node {held values items} (value : Json) (behind : WritesItems held values items) :
      WritesItems (true :: held) (value :: values) (value :: items)
  | hole {held values items} (behind : WritesItems held values items) :
      WritesItems (false :: held) values (.null :: items)

/-- The value of a field in which the given values stand for its nodes, in their order. -/
inductive FieldData.Writes : FieldData → List Json → Json → Prop
  | node (value : Json) : Writes .node [value] value
  | nodes {held values items} (written : WritesItems held values items) :
      Writes (.nodes held) values (.array items)
  | value (json : Json) : Writes (.value json) [] json

/-- The entries of fields in which the given values stand for the nodes, in their order. -/
inductive WritesEntries : List (String × FieldData) → List Json → List (String × Json) → Prop
  | nil : WritesEntries [] [] []
  | cons {key field fields values others value entries} (here : FieldData.Writes field values value)
      (behind : WritesEntries fields others entries) :
      WritesEntries ((key, field) :: fields) (values ++ others) ((key, value) :: entries)

/-- The fields that are written behind the type name of a node with that data and that many
children. -/
def NodeData.outline : NodeData → Nat → List (String × FieldData)
  | .program sourceType, count =>
      ("body", .nodes (List.replicate count true)) ::
        sourceType.toList.map fun text => ("sourceType", .value (.string text))
  | .expressionStatement, _ => [("expression", .node)]
  | .blockStatement, count => [("body", .nodes (List.replicate count true))]
  | .returnStatement, count => [("argument", if count = 0 then .value .null else .node)]
  | .variableDeclaration kind, count =>
      [("declarations", .nodes (List.replicate count true)), ("kind", .value (.string kind.name))]
  | .variableDeclarator, count =>
      [("id", .node), ("init", if count = 1 then .value .null else .node)]
  | .identifier name, _ => [("name", .value (.string name))]
  | .privateIdentifier name, _ => [("name", .value (.string name))]
  | .literal value raw regex bigint, _ =>
      (Json.presentEntries NodeKind.literal.fieldNames [some value.toJson, raw.map .string,
        regex.map RegexLiteral.toJson, bigint.map .string]).map fun entry =>
          (entry.1, .value entry.2)
  | .templateLiteral quasis, count =>
      [("quasis", .value (.array (quasis.map TemplateElement.toJson))),
        ("expressions", .nodes (List.replicate count true))]
  | .taggedTemplate, _ => [("tag", .node), ("quasi", .node)]
  | .member computed optional, _ =>
      [("object", .node), ("property", .node), ("computed", .value (.boolean computed)),
        ("optional", .value (.boolean optional))]
  | .binary operator, _ | .assignment operator, _ =>
      [("operator", .value (.string operator)), ("left", .node), ("right", .node)]
  | .call optional, count =>
      [("callee", .node), ("arguments", .nodes (List.replicate (count - 1) true)),
        ("optional", .value (.boolean optional))]
  | .array held, _ => [("elements", .nodes held)]
  | .conditional, _ => [("test", .node), ("consequent", .node), ("alternate", .node)]
  | .other _ fields, _ => fields

theorem writesItems_nodes (nodes : List Node) :
    WritesItems (List.replicate nodes.length true) (nodes.map Node.toJson) (nodesToJson nodes) := by
  induction nodes with
  | nil => exact .nil
  | cons node nodes ih => exact .node node.toJson ih

theorem writesItems_items (items : List (Option Node)) :
    WritesItems (items.map Option.isSome) ((items.filterMap id).map Node.toJson)
      (itemsToJson items) := by
  induction items with
  | nil => exact .nil
  | cons item items ih =>
      cases item with
      | none => exact .hole ih
      | some node => exact .node node.toJson ih

theorem writes_field (field : Field) :
    field.data.Writes (field.children.map Node.toJson) field.toJson := by
  cases field with
  | node held => exact .node held.toJson
  | nodes items => exact .nodes (writesItems_items items)
  | value json => exact .value json

theorem writesEntries_fields (fields : List (String × Field)) :
    WritesEntries (fields.map fun entry => (entry.1, entry.2.data))
      ((fields.flatMap fun field => field.2.children).map Node.toJson) (fieldsToJson fields) := by
  induction fields with
  | nil => exact .nil
  | cons entry fields ih =>
      rw [List.flatMap_cons, List.map_append]
      exact .cons (writes_field entry.2) ih

theorem writesEntries_values (entries : List (String × Json)) :
    WritesEntries (entries.map fun entry => (entry.1, .value entry.2)) [] entries := by
  induction entries with
  | nil => exact .nil
  | cons entry entries ih => exact .cons (.value entry.2) ih

theorem WritesEntries.consLast {key : String} {field : FieldData} {value : Json}
    {fields : List (String × FieldData)} {values : List Json} {entries : List (String × Json)}
    (here : field.Writes values value) (behind : WritesEntries fields [] entries) :
    WritesEntries ((key, field) :: fields) values ((key, value) :: entries) := by
  rw [← List.append_nil values]
  exact .cons here behind

/-- The JSON form of a node is its outline with its children at the places of nodes, in order. -/
theorem Node.writes_toJson (node : Node) :
    ∃ entries, node.toJson = .object (("type", .string node.typeName) :: entries) ∧
      WritesEntries (node.data.outline node.children.length) (node.children.map toJson)
        entries := by
  have one (child : Node) := FieldData.Writes.node child.toJson
  have list (nodes : List Node) := FieldData.Writes.nodes (writesItems_nodes nodes)
  cases node with
  | program body sourceType =>
      cases sourceType with
      | none => exact ⟨_, rfl, .consLast (list body) .nil⟩
      | some text => exact ⟨_, rfl, .consLast (list body) (.consLast (.value _) .nil)⟩
  | expressionStatement expression => exact ⟨_, rfl, .cons (one expression) .nil⟩
  | blockStatement body => exact ⟨_, rfl, .consLast (list body) .nil⟩
  | returnStatement argument =>
      cases argument with
      | none => exact ⟨_, rfl, .cons (.value .null) .nil⟩
      | some returned => exact ⟨_, rfl, .cons (one returned) .nil⟩
  | variableDeclaration declarations kind =>
      exact ⟨_, rfl, .consLast (list declarations) (.cons (.value _) .nil)⟩
  | variableDeclarator id init =>
      cases init with
      | none => exact ⟨_, rfl, .cons (one id) (.cons (.value .null) .nil)⟩
      | some initial => exact ⟨_, rfl, .cons (one id) (.cons (one initial) .nil)⟩
  | identifier name => exact ⟨_, rfl, .cons (.value _) .nil⟩
  | privateIdentifier name => exact ⟨_, rfl, .cons (.value _) .nil⟩
  | literal value raw regex bigint => exact ⟨_, rfl, writesEntries_values _⟩
  | templateLiteral quasis expressions =>
      exact ⟨_, rfl, .cons (.value _) (.consLast (list expressions) .nil)⟩
  | taggedTemplate tag quasi => exact ⟨_, rfl, .cons (one tag) (.cons (one quasi) .nil)⟩
  | member object property computed optional =>
      exact ⟨_, rfl, .cons (one object) (.cons (one property)
        (.cons (.value _) (.cons (.value _) .nil)))⟩
  | binary operator left right =>
      exact ⟨_, rfl, .cons (.value _) (.cons (one left) (.cons (one right) .nil))⟩
  | assignment operator left right =>
      exact ⟨_, rfl, .cons (.value _) (.cons (one left) (.cons (one right) .nil))⟩
  | call callee arguments optional =>
      exact ⟨_, rfl, .cons (one callee) (.consLast (list arguments) (.cons (.value _) .nil))⟩
  | array elements => exact ⟨_, rfl, .consLast (.nodes (writesItems_items elements)) .nil⟩
  | conditional test consequent alternate =>
      exact ⟨_, rfl, .cons (one test) (.cons (one consequent) (.cons (one alternate) .nil))⟩
  | other typeName fields => exact ⟨_, rfl, writesEntries_fields fields⟩

theorem WritesItems.sublist_tokens {held : List Bool} {values items : List Json}
    (written : WritesItems held values items) :
    (values.flatMap Json.tokens).Sublist (items.flatMap Json.tokens) := by
  induction written with
  | nil => exact .refl []
  | node value behind ih => exact (List.Sublist.refl value.tokens).append ih
  | hole behind ih => exact ih.trans (List.sublist_append_right _ _)

theorem FieldData.Writes.sublist_tokens {field : FieldData} {values : List Json} {value : Json}
    (written : field.Writes values value) :
    (values.flatMap Json.tokens).Sublist value.tokens := by
  cases written with
  | node value => rw [List.flatMap_singleton]
  | nodes written => exact written.sublist_tokens.trans (Json.sublist_tokens_array _)
  | value => exact List.nil_sublist _

theorem WritesEntries.sublist_tokens {fields : List (String × FieldData)} {values : List Json}
    {entries : List (String × Json)} (written : WritesEntries fields values entries) :
    (values.flatMap Json.tokens).Sublist (entries.flatMap fun entry => entry.2.tokens) := by
  induction written with
  | nil => exact .refl []
  | cons here behind ih =>
      rw [List.flatMap_append, List.flatMap_cons]
      exact here.sublist_tokens.append ih

/-- The tokens of the children stand among those of the node in the order of the slots. -/
theorem Node.sublist_tokens_children (node : Node) :
    (node.children.flatMap fun child => child.toJson.tokens).Sublist node.toJson.tokens := by
  obtain ⟨entries, object, written⟩ := node.writes_toJson
  have inside := written.sublist_tokens
  rw [List.flatMap_map] at inside
  have whole := Json.sublist_tokens_object (("type", .string node.typeName) :: entries)
  rw [List.flatMap_cons] at whole
  rw [object]
  exact (inside.trans (List.sublist_append_right _ _)).trans whole

namespace Node

theorem typeName_withChildren (node : Node) (nodes : List Node) :
    (node.withChildren nodes).typeName = node.typeName := by
  unfold withChildren
  split <;> rfl

theorem writes_toJson_withChildren {node : Node} {nodes : List Node}
    (enough : nodes.length = node.children.length) :
    ∃ entries, (node.withChildren nodes).toJson =
        .object (("type", .string node.typeName) :: entries) ∧
      WritesEntries (node.data.outline node.children.length) (nodes.map toJson) entries := by
  have written := (node.withChildren nodes).writes_toJson
  rwa [typeName_withChildren, data_withChildren, children_withChildren enough, enough] at written

/-- Writing into a slot changes the child in it and nothing else about the node, whatever was
written before into this slot or another one. A node is no more than its children and what it holds
of its own. Whatever the children, they stand in the JSON form of the node at the places of its
outline, and in its text, in the order of the slots. -/
theorem setChild?_lawful (node : Node) :
    (∀ index child, index < node.children.length →
        ∃ written, node.setChild? index child = some written ∧ written.kind = node.kind ∧
          written.data = node.data ∧ written.children = node.children.set index child) ∧
      (∀ index child, node.children[index]? = some child →
        node.setChild? index child = some node) ∧
      (∀ index child written, node.setChild? index child = some written →
        ∀ later, written.setChild? index later = node.setChild? index later) ∧
      (∀ index other, index ≠ other → ∀ child later,
        (node.setChild? index child).bind (setChild? · other later) =
          (node.setChild? other later).bind (setChild? · index child)) ∧
      (∀ other : Node, other.data = node.data → other.children = node.children →
        other = node) ∧
      (∀ nodes, nodes.length = node.children.length →
        ∃ entries, (node.withChildren nodes).toJson =
            .object (("type", .string node.typeName) :: entries) ∧
          WritesEntries (node.data.outline node.children.length) (nodes.map toJson) entries) ∧
      (node.children.flatMap fun child => child.toJson.tokens).Sublist node.toJson.tokens := by
  refine ⟨?_, ?_, ?_, ?_, ?_, ?_, node.sublist_tokens_children⟩
  · intro index child bound
    have set : node.setChild? index child = some _ := setChild?_eq_some_iff.mpr ⟨bound, rfl⟩
    exact ⟨_, set, kind_withChildren _ _, data_withChildren _ _, children_of_setChild? set⟩
  · exact fun _ _ => setChild?_self
  · exact fun _ _ _ => setChild?_setChild?
  · exact fun _ _ => setChild?_comm
  · exact fun _ => ext_of_data
  · exact fun _ => writes_toJson_withChildren

/-- A node of an undedicated kind, with its third slot behind a raw field and a hole. -/
theorem setChild?_lawful_chunk :
    let name := Node.identifier
    let chunk (third : Node) := Node.other "Chunk"
      [("label", .node (name "a")), ("flag", .value (.boolean true)),
        ("parts", .nodes [some (name "b"), none, some third])]
    (chunk (name "c")).setChild? 2 (name "d") = some (chunk (name "d")) ∧
      (∀ later, (chunk (name "d")).setChild? 2 later = (chunk (name "c")).setChild? 2 later) ∧
      (chunk (name "c")).setChild? 2 (name "c") = some (chunk (name "c")) ∧
      ((chunk (name "c")).setChild? 0 (name "e")).bind (setChild? · 2 (name "d")) =
        ((chunk (name "c")).setChild? 2 (name "d")).bind (setChild? · 0 (name "e")) ∧
      ∃ written, (chunk (name "c")).setChild? 2 (name "d") = some written ∧
        written.children = [name "a", name "b", name "d"] := by
  intro name chunk
  have set : (chunk (name "c")).setChild? 2 (name "d") = some (chunk (name "d")) := rfl
  obtain ⟨writes, same, overrides, commutes, _⟩ := setChild?_lawful (chunk (name "c"))
  obtain ⟨written, given, _, _, children⟩ := writes 2 (name "d") (by decide)
  exact ⟨set, overrides 2 _ _ set, same 2 _ rfl, commutes 0 2 (by decide) _ _, written, given,
    children⟩

end Node

end EstreeLowering
