import EstreeLowering.Node.Write
import EstreeLowering.Proofs.Node.Fields
import EstreeLowering.Proofs.Node.Position

namespace EstreeLowering

namespace Json

/-- An object with a string as its `type`. -/
def LooksLikeNode (value : Json) : Prop :=
  ∃ entries typeName, value = .object entries ∧ ("type", .string typeName) ∈ entries

/-- An array with at least one such object and otherwise only such objects or `null`. -/
def LooksLikeNodes (value : Json) : Prop :=
  ∃ items, value = .array items ∧ (∃ item ∈ items, item.LooksLikeNode) ∧
    ∀ item ∈ items, item = .null ∨ item.LooksLikeNode

end Json

/-- A number is finite, and raw JSON is an array or an object. -/
def LiteralValue.WellFormed : LiteralValue → Prop
  | .number value => ∃ x, value = .finite x
  | .raw value =>
      value.DistinctKeys ∧ ((∃ items, value = .array items) ∨ ∃ entries, value = .object entries)
  | _ => True

/-- A list holds a node, and raw JSON is neither a node nor such a list. -/
def Field.WellFormed : Field → Prop
  | .node _ => True
  | .nodes items => ∃ node, some node ∈ items
  | .value raw => raw.DistinctKeys ∧ ¬ raw.LooksLikeNode ∧ ¬ raw.LooksLikeNodes

namespace Node

/-- What a node has to fulfil apart from the nodes below it. -/
def WellFormedTop : Node → Prop
  | .literal value _ _ _ => value.WellFormed
  | .other typeName fields =>
      (∀ kind ∈ NodeKind.dedicated, kind.name ≠ typeName) ∧
        (fields.map (·.1)).Nodup ∧ "type" ∉ fields.map (·.1) ∧
        ∀ entry ∈ fields, entry.2.WellFormed
  | _ => True

inductive WellFormed : Node → Prop
  | intro {node} (top : node.WellFormedTop)
      (below : ∀ child, PartOf child node → WellFormed child) : WellFormed node

theorem wellFormed_iff {node : Node} :
    node.WellFormed ↔ node.WellFormedTop ∧ ∀ child ∈ node.children, child.WellFormed := by
  constructor
  · intro wellFormed
    cases wellFormed with
    | intro top below => exact ⟨top, fun child isChild => below child (mem_children.mp isChild)⟩
  · intro both
    exact .intro both.1 fun child part => both.2 child (mem_children.mpr part)

end Node

theorem Field.WellFormed.fill {field : Field} {supply : List Node} (wellFormed : field.WellFormed)
    (enough : supply.length = field.children.length) : (field.fill supply).1.WellFormed := by
  cases field with
  | node held =>
      obtain ⟨only, rfl⟩ := List.length_eq_one_iff.mp enough
      trivial
  | nodes items =>
      obtain ⟨node, member⟩ := wellFormed
      have held : 0 < (items.filterMap id).length :=
        List.length_pos_of_mem (Node.mem_filterMap_items.mpr member)
      obtain ⟨first, given⟩ : ∃ first, first ∈ supply :=
        List.exists_mem_of_length_pos (by rw [enough]; exact held)
      rw [← filterMap_fillItems enough] at given
      exact ⟨first, Node.mem_filterMap_items.mp given⟩
  | value raw => exact wellFormed

theorem wellFormed_fillFields {fields : List (String × Field)} {supply : List Node}
    (wellFormed : ∀ entry ∈ fields, entry.2.WellFormed)
    (enough : supply.length = (fields.flatMap fun field => field.2.children).length) :
    ∀ entry ∈ fillFields fields supply, entry.2.WellFormed := by
  induction fields generalizing supply with
  | nil => exact fun _ none => nomatch none
  | cons entry fields ih =>
      obtain ⟨front, back, rfl, here, behind⟩ := exists_division enough
      obtain ⟨first, others⟩ := List.forall_mem_cons.mp wellFormed
      rw [fillFields_cons_append here]
      exact List.forall_mem_cons.mpr ⟨first.fill here, ih others behind⟩

/-- What a node has to fulfil of its own does not depend on the nodes in its slots. -/
theorem Node.WellFormedTop.mapChildren {node : Node} (top : node.WellFormedTop)
    (change : Node → Node) : (node.mapChildren change).WellFormedTop := by
  cases node with
  | literal => exact top
  | other typeName fields =>
      obtain ⟨undedicated, nodup, noType, wellFormed⟩ := top
      refine ⟨undedicated, ?_, ?_, wellFormed_fillFields wellFormed (List.length_map change)⟩
      · rwa [keys_fillFields]
      · rwa [keys_fillFields]
  | returnStatement argument => cases argument <;> trivial
  | variableDeclarator id init => cases init <;> trivial
  | _ => trivial

theorem nodesToJson_eq_map (nodes : List Node) : nodesToJson nodes = nodes.map Node.toJson := by
  induction nodes with
  | nil => rw [nodesToJson, List.map_nil]
  | cons node nodes ih => rw [nodesToJson, ih, List.map_cons]

theorem itemsToJson_eq_map (items : List (Option Node)) :
    itemsToJson items = items.map optionToJson := by
  induction items with
  | nil => rw [itemsToJson, List.map_nil]
  | cons item items ih => rw [itemsToJson, ih, List.map_cons]

theorem fieldsToJson_eq_map (fields : List (String × Field)) :
    fieldsToJson fields = fields.map fun entry => (entry.1, entry.2.toJson) := by
  induction fields with
  | nil => rw [fieldsToJson, List.map_nil]
  | cons entry fields ih => rw [fieldsToJson, ih, List.map_cons]

theorem keys_fieldsToJson (fields : List (String × Field)) :
    (fieldsToJson fields).map (·.1) = fields.map (·.1) := by
  rw [fieldsToJson_eq_map, List.map_map]
  rfl

theorem mem_fieldsToJson {fields : List (String × Field)} {key : String} {field : Field}
    (member : (key, field) ∈ fields) : (key, field.toJson) ∈ fieldsToJson fields := by
  rw [fieldsToJson_eq_map]
  exact List.mem_map_of_mem member

theorem Node.exists_toJson (node : Node) :
    ∃ entries, node.toJson = .object (("type", .string node.typeName) :: entries) := by
  cases node <;> exact ⟨_, rfl⟩

theorem distinctKeys_templateElement (element : TemplateElement) :
    element.toJson.DistinctKeys := by
  have cooked : (Json.textOrNull element.cooked).DistinctKeys := by
    cases element.cooked with
    | none => exact .null
    | some text => exact .string
  have texts : (Json.object [("raw", .string element.raw),
      ("cooked", Json.textOrNull element.cooked)]).DistinctKeys := by
    refine .object (by simp) ?_
    simp only [List.forall_mem_cons, List.not_mem_nil, false_implies, implies_true, and_true]
    exact ⟨.string, cooked⟩
  refine .object (by simp) ?_
  simp only [List.forall_mem_cons, List.not_mem_nil, false_implies, implies_true, and_true]
  exact ⟨.string, texts, .boolean⟩

theorem distinctKeys_regex (regex : RegexLiteral) : regex.toJson.DistinctKeys := by
  refine .object (by simp) ?_
  simp only [List.forall_mem_cons, List.not_mem_nil, false_implies, implies_true, and_true]
  exact ⟨.string, .string⟩

/-- A field that is left out or whose value has distinct keys. -/
def DistinctField (given : Option Json) : Prop :=
  ∀ value ∈ given, value.DistinctKeys

namespace DistinctField

theorem some {value : Json} (distinct : value.DistinctKeys) : DistinctField (.some value) := by
  intro given same
  cases same
  exact distinct

theorem text (given : Option String) : DistinctField (given.map .string) := by
  cases given with
  | none => exact fun _ none => nomatch none
  | some text => exact some .string

theorem regex (given : Option RegexLiteral) : DistinctField (given.map RegexLiteral.toJson) := by
  cases given with
  | none => exact fun _ none => nomatch none
  | some regex => exact some (distinctKeys_regex regex)

end DistinctField

namespace NodeKind

variable {kind : NodeKind} {values : List (Option Json)}

theorem distinctKeys_encode (within : values.Forall DistinctField) :
    (kind.encode values).DistinctKeys := by
  have keys := Json.keys_presentEntries kind.fieldNames values
  refine .object ?_ ?_
  · refine List.nodup_cons.mpr ⟨?_, keys.nodup kind.nodup_fieldNames⟩
    exact fun member => kind.type_not_mem_fieldNames (keys.subset member)
  · intro entry member
    rcases List.mem_cons.mp member with same | member
    · cases same
      exact .string
    · have given := (List.of_mem_zip (Json.mem_presentEntries.mp member)).2
      exact List.forall_iff_forall_mem.mp within _ given entry.2 rfl

end NodeKind

theorem distinctKeys_nodes {nodes : List Node}
    (within : ∀ node ∈ nodes, node.toJson.DistinctKeys) :
    (Json.array (nodesToJson nodes)).DistinctKeys := by
  rw [nodesToJson_eq_map]
  exact .array (List.forall_mem_map.mpr within)

theorem distinctKeys_option (item : Option Node)
    (within : ∀ node, item = some node → node.toJson.DistinctKeys) :
    (optionToJson item).DistinctKeys := by
  cases item with
  | none => exact .null
  | some node => exact within node rfl

theorem distinctKeys_items {items : List (Option Node)}
    (within : ∀ node, some node ∈ items → node.toJson.DistinctKeys) :
    (Json.array (itemsToJson items)).DistinctKeys := by
  rw [itemsToJson_eq_map]
  refine .array (List.forall_mem_map.mpr fun item member => distinctKeys_option item ?_)
  intro node same
  exact within node (same ▸ member)

theorem LiteralValue.WellFormed.distinctKeys {value : LiteralValue}
    (wellFormed : value.WellFormed) : value.toJson.DistinctKeys := by
  cases value with
  | null => exact .null
  | boolean => exact .boolean
  | number =>
      obtain ⟨x, rfl⟩ := wellFormed
      exact .number
  | string => exact .string
  | raw => exact wellFormed.1

theorem Node.WellFormed.distinctKeys {node : Node} (wellFormed : node.WellFormed) :
    node.toJson.DistinctKeys := by
  induction wellFormed with
  | @intro node top _ ih =>
      cases node with
      | program body sourceType =>
          have statements := distinctKeys_nodes fun child member =>
            ih child (.programStatement member)
          exact NodeKind.distinctKeys_encode ⟨.some statements, .text sourceType⟩
      | expressionStatement => exact NodeKind.distinctKeys_encode (.some (ih _ .expression))
      | blockStatement =>
          have statements := distinctKeys_nodes fun child member =>
            ih child (.blockStatement member)
          exact NodeKind.distinctKeys_encode (.some statements)
      | returnStatement argument =>
          have returned := distinctKeys_option argument fun child same =>
            ih child (same ▸ .returned)
          exact NodeKind.distinctKeys_encode (.some returned)
      | variableDeclaration =>
          have declarators := distinctKeys_nodes fun child member => ih child (.declarator member)
          exact NodeKind.distinctKeys_encode ⟨.some declarators, .some .string⟩
      | variableDeclarator id init =>
          have initial := distinctKeys_option init fun child same => ih child (same ▸ .initial)
          exact NodeKind.distinctKeys_encode ⟨.some (ih _ .declared), .some initial⟩
      | identifier => exact NodeKind.distinctKeys_encode (.some .string)
      | privateIdentifier => exact NodeKind.distinctKeys_encode (.some .string)
      | literal value raw regex bigint =>
          have literal := LiteralValue.WellFormed.distinctKeys top
          exact NodeKind.distinctKeys_encode
            ⟨.some literal, .text raw, .regex regex, .text bigint⟩
      | templateLiteral quasis =>
          have segments : ∀ segment ∈ quasis.map TemplateElement.toJson, segment.DistinctKeys :=
            List.forall_mem_map.mpr fun element _ => distinctKeys_templateElement element
          have substitutions := distinctKeys_nodes fun child member =>
            ih child (.substitution member)
          exact NodeKind.distinctKeys_encode ⟨.some (.array segments), .some substitutions⟩
      | taggedTemplate =>
          exact NodeKind.distinctKeys_encode ⟨.some (ih _ .tag), .some (ih _ .quasi)⟩
      | member =>
          exact NodeKind.distinctKeys_encode
            ⟨.some (ih _ .object), .some (ih _ .property), .some .boolean, .some .boolean⟩
      | binary =>
          exact NodeKind.distinctKeys_encode
            ⟨.some .string, .some (ih _ .leftOperand), .some (ih _ .rightOperand)⟩
      | assignment =>
          exact NodeKind.distinctKeys_encode
            ⟨.some .string, .some (ih _ .target), .some (ih _ .assigned)⟩
      | call =>
          have arguments := distinctKeys_nodes fun child member => ih child (.argument member)
          exact NodeKind.distinctKeys_encode
            ⟨.some (ih _ .callee), .some arguments, .some .boolean⟩
      | array =>
          have elements := distinctKeys_items fun child member => ih child (.element member)
          exact NodeKind.distinctKeys_encode (.some elements)
      | conditional =>
          exact NodeKind.distinctKeys_encode
            ⟨.some (ih _ .test), .some (ih _ .consequent), .some (ih _ .alternate)⟩
      | other typeName fields =>
          obtain ⟨_, nodup, noType, wellFormed⟩ := top
          refine .object ?_ ?_
          · rw [List.map_cons, keys_fieldsToJson]
            exact List.nodup_cons.mpr ⟨noType, nodup⟩
          · rw [fieldsToJson_eq_map]
            refine List.forall_mem_cons.mpr ⟨.string, List.forall_mem_map.mpr ?_⟩
            intro entry member
            obtain ⟨key, field⟩ := entry
            cases field with
            | node child => exact ih child (.fieldNode member)
            | nodes items =>
                exact distinctKeys_items fun child item => ih child (.fieldItem member item)
            | value raw => exact (wellFormed _ member).1

theorem NodeKind.height_lt_encode {kind : NodeKind} {values : List (Option Json)} {key : String}
    {value : Json} (member : (key, some value) ∈ kind.fieldNames.zip values) :
    value.height < (kind.encode values).height :=
  Json.height_lt_object (List.mem_cons_of_mem _ (Json.mem_presentEntries.mpr member))

theorem height_lt_nodes {nodes : List Node} {node : Node} (member : node ∈ nodes) :
    node.toJson.height < (Json.array (nodesToJson nodes)).height := by
  rw [nodesToJson_eq_map]
  exact Json.height_lt_array (List.mem_map_of_mem member)

theorem height_lt_items {items : List (Option Node)} {node : Node} (member : some node ∈ items) :
    node.toJson.height < (Json.array (itemsToJson items)).height := by
  rw [itemsToJson_eq_map]
  exact Json.height_lt_array (List.mem_map_of_mem (f := optionToJson) member)

theorem Node.PartOf.height_lt {child node : Node} (part : PartOf child node) :
    child.toJson.height < node.toJson.height := by
  have first {key : String} {value : Json} {rest : List (String × Option Json)} :
      (key, some value) ∈ (key, some value) :: rest := List.mem_cons_self
  cases part with
  | programStatement member =>
      exact Nat.lt_trans (height_lt_nodes member) (NodeKind.height_lt_encode first)
  | blockStatement member =>
      exact Nat.lt_trans (height_lt_nodes member) (NodeKind.height_lt_encode first)
  | declarator member =>
      exact Nat.lt_trans (height_lt_nodes member) (NodeKind.height_lt_encode first)
  | substitution member =>
      exact Nat.lt_trans (height_lt_nodes member) (NodeKind.height_lt_encode (.tail _ first))
  | argument member =>
      exact Nat.lt_trans (height_lt_nodes member) (NodeKind.height_lt_encode (.tail _ first))
  | element member =>
      exact Nat.lt_trans (height_lt_items member) (NodeKind.height_lt_encode first)
  | expression | returned | declared | tag | object | callee | test =>
      exact NodeKind.height_lt_encode first
  | initial | quasi | property | leftOperand | target | consequent =>
      exact NodeKind.height_lt_encode (.tail _ first)
  | rightOperand | assigned | alternate =>
      exact NodeKind.height_lt_encode (.tail _ (.tail _ first))
  | fieldNode member =>
      have entry := mem_fieldsToJson member
      exact Json.height_lt_object (List.mem_cons_of_mem _ entry)
  | fieldItem member item =>
      have entry := mem_fieldsToJson member
      exact Nat.lt_trans (height_lt_items item)
        (Json.height_lt_object (List.mem_cons_of_mem _ entry))

end EstreeLowering
