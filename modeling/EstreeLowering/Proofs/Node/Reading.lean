import EstreeLowering.Node.Build
import EstreeLowering.Node.Read
import EstreeLowering.Run.Basic
import EstreeLowering.Proofs.Json.Reading
import EstreeLowering.Proofs.Node.Layer
import EstreeLowering.Proofs.Node.WellFormed

namespace EstreeLowering

theorem VariableKind.ofJson?_name (kind : VariableKind) :
    VariableKind.ofJson? (.string kind.name) = some kind := by
  cases kind <;> rfl

theorem LiteralValue.WellFormed.ofJson {value : LiteralValue} (wellFormed : value.WellFormed) :
    LiteralValue.ofJson value.toJson = value := by
  cases value with
  | number =>
      obtain ⟨x, rfl⟩ := wellFormed
      rfl
  | raw value =>
      obtain ⟨distinct, ⟨items, rfl⟩ | ⟨entries, rfl⟩⟩ := wellFormed
      · exact congrArg LiteralValue.raw distinct.merged
      · exact congrArg LiteralValue.raw distinct.merged
  | _ => rfl

theorem RegexLiteral.ofJson?_toJson (regex : RegexLiteral) :
    RegexLiteral.ofJson? regex.toJson = some regex := by
  rfl

theorem TemplateElement.ofJson?_toJson (element : TemplateElement) :
    TemplateElement.ofJson? element.toJson = some element := by
  obtain ⟨raw, cooked, tail⟩ := element
  cases cooked <;> rfl

section

variable {read : Json → Option Node}

theorem mapM_nodesToJson {nodes : List Node}
    (reads : ∀ node ∈ nodes, read node.toJson = some node) :
    (nodesToJson nodes).mapM read = some nodes := by
  induction nodes with
  | nil => rfl
  | cons node nodes ih =>
      have rest := ih fun other member => reads other (List.mem_cons_of_mem node member)
      rw [nodesToJson, List.mapM_cons, reads node List.mem_cons_self, rest]
      rfl

theorem optional?_optionToJson (item : Option Node)
    (reads : ∀ node, item = some node → read node.toJson = some node) :
    Json.optional? read (some (optionToJson item)) = some item := by
  cases item with
  | none => rfl
  | some node =>
      obtain ⟨entries, object⟩ := node.exists_toJson
      have given : node.toJson ≠ .null := by
        rw [object]
        exact fun impossible => nomatch impossible
      rw [optionToJson, Json.optional?_of_ne_null given, reads node rfl]
      rfl

theorem items?_itemsToJson {items : List (Option Node)}
    (reads : ∀ node, some node ∈ items → read node.toJson = some node) :
    Json.items? read (itemsToJson items) = some items := by
  induction items with
  | nil => rfl
  | cons item items ih =>
      have rest := ih fun node member => reads node (List.mem_cons_of_mem item member)
      have first := optional?_optionToJson item fun node same =>
        reads node (same ▸ List.mem_cons_self)
      unfold Json.items? at rest ⊢
      rw [itemsToJson, List.mapM_cons, first, rest]
      rfl

theorem mapM_templateElements (elements : List TemplateElement) :
    (elements.map TemplateElement.toJson).mapM TemplateElement.ofJson? = some elements := by
  induction elements with
  | nil => rfl
  | cons element elements ih =>
      rw [List.map_cons, List.mapM_cons, element.ofJson?_toJson, ih]
      rfl

theorem soleKind?_cons {entries : List (String × Json)} (tag : Json)
    (sole : "type" ∉ entries.map (·.1)) :
    soleKind? (("type", tag) :: entries) = NodeKind.ofTag? tag := by
  unfold soleKind?
  rw [List.filter_cons_of_pos (by rfl), Json.filter_of_not_mem sole]

theorem layer_encode {kind : NodeKind} {values : List (Option Json)} (dedicated : kind ≠ .other)
    (lengths : values.length = kind.fieldNames.length) :
    Node.layer read (kind.encode values) = Node.ofFields? read kind values := by
  have keys := Json.keys_presentEntries kind.fieldNames values
  have sole : soleKind? (("type", .string kind.name) ::
      Json.presentEntries kind.fieldNames values) = some kind := by
    rw [soleKind?_cons _ fun member => kind.type_not_mem_fieldNames (keys.subset member)]
    exact NodeKind.ofTag?_name dedicated
  have fields := Json.namedFields_presentEntries kind.nodup_fieldNames lengths
    kind.type_not_mem_fieldNames (.string kind.name)
  simp only [NodeKind.encode, layer_object, sole, fields, Option.bind_some]

theorem looksLikeNode_of_isNodeObject {value : Json} (nodeObject : value.isNodeObject = true) :
    value.LooksLikeNode := by
  unfold Json.isNodeObject at nodeObject
  split at nodeObject
  · rename_i typeName found
    cases value with
    | object entries => exact ⟨entries, typeName, rfl, Json.mem_of_lookup found⟩
    | _ => cases found
  · cases nodeObject

theorem looksLikeNodes_of_areNodes {items : List Json} (nodes : Json.areNodes items = true) :
    (Json.array items).LooksLikeNodes := by
  obtain ⟨⟨item, member, nodeObject⟩, all⟩ := Json.areNodes_iff.mp nodes
  refine ⟨items, rfl, ⟨item, member, looksLikeNode_of_isNodeObject nodeObject⟩, ?_⟩
  exact fun other given => (all other given).imp_right looksLikeNode_of_isNodeObject

theorem isNodeObject_toJson (node : Node) : node.toJson.isNodeObject = true := by
  obtain ⟨entries, object⟩ := node.exists_toJson
  rw [object]
  rfl

theorem areNodes_itemsToJson {items : List (Option Node)} {node : Node}
    (member : some node ∈ items) : Json.areNodes (itemsToJson items) = true := by
  rw [itemsToJson_eq_map, Json.areNodes_iff]
  refine ⟨⟨_, List.mem_map_of_mem member, isNodeObject_toJson node⟩, ?_⟩
  refine List.forall_mem_map.mpr fun item _ => ?_
  cases item with
  | none => exact .inl rfl
  | some other => exact .inr (isNodeObject_toJson other)

theorem Field.WellFormed.ofJson? {field : Field} (wellFormed : field.WellFormed)
    (reads : ∀ node, field = .node node → read node.toJson = some node)
    (readsItems : ∀ items, field = .nodes items →
      ∀ node, some node ∈ items → read node.toJson = some node) :
    Field.ofJson? read field.toJson = some field := by
  cases field with
  | node node =>
      obtain ⟨entries, object⟩ := node.exists_toJson
      have nodeObject := isNodeObject_toJson node
      have readNode := reads node rfl
      rw [object] at nodeObject readNode
      rw [Field.toJson, object, Field.ofJson?, if_pos nodeObject, readNode]
      · rfl
      · intro _ impossible
        cases impossible
  | nodes items =>
      obtain ⟨node, member⟩ := wellFormed
      have areNodes := areNodes_itemsToJson member
      rw [Field.toJson, Field.ofJson?, if_pos areNodes, items?_itemsToJson (readsItems items rfl)]
      rfl
  | value raw =>
      obtain ⟨_, notNode, notNodes⟩ := wellFormed
      rw [Field.toJson]
      cases raw with
      | array items =>
          rw [Field.ofJson?, if_neg fun areNodes => notNodes (looksLikeNodes_of_areNodes areNodes)]
      | _ =>
          rw [Field.ofJson?, if_neg fun isNode => notNode (looksLikeNode_of_isNodeObject isNode)]
          intro _ impossible
          cases impossible

theorem mapM_fieldsToJson {fields : List (String × Field)}
    (reads : ∀ entry ∈ fields, Field.ofJson? read entry.2.toJson = some entry.2) :
    (fieldsToJson fields).mapM (fun (key, value) => (Field.ofJson? read value).map (key, ·)) =
      some fields := by
  induction fields with
  | nil => rfl
  | cons entry fields ih =>
      have rest := ih fun other member => reads other (List.mem_cons_of_mem entry member)
      have first := reads entry List.mem_cons_self
      rw [fieldsToJson, List.mapM_cons, rest]
      simp only [first]
      rfl

theorem layer_other {typeName : String} {fields : List (String × Field)}
    (top : (Node.other typeName fields).WellFormedTop)
    (distinct : (Node.other typeName fields).toJson.DistinctKeys)
    (reads : ∀ entry ∈ fields, Field.ofJson? read entry.2.toJson = some entry.2) :
    Node.layer read (Node.other typeName fields).toJson = some (.other typeName fields) := by
  obtain ⟨undedicated, _, noType, _⟩ := top
  have unnamed := NodeKind.ofName?_eq_none_iff.mpr undedicated
  have keys : "type" ∉ (fieldsToJson fields).map (·.1) := by rwa [keys_fieldsToJson]
  have sole : soleKind? (("type", .string typeName) :: fieldsToJson fields) = none := by
    rw [soleKind?_cons _ keys, NodeKind.ofTag?_string]
    exact unnamed
  have merged : Json.mergeKeys (Json.mergedEntries
      (("type", .string typeName) :: fieldsToJson fields)) =
      ("type", .string typeName) :: fieldsToJson fields := distinct.mergeKeys_mergedEntries
  have rest : (("type", Json.string typeName) :: fieldsToJson fields).filter (·.1 != "type") =
      fieldsToJson fields := by
    rw [List.filter_cons_of_neg (by simp), List.filter_eq_self]
    intro entry member
    exact bne_iff_ne.mpr fun same => keys (same ▸ List.mem_map_of_mem member)
  rw [Node.toJson, layer_object, sole]
  simp only [merged, Node.otherOf?, List.lookup_cons_self, unnamed, rest, mapM_fieldsToJson reads]
  rfl

/-- A node is read back if the nodes in it are. -/
theorem layer_toJson {node : Node} (top : node.WellFormedTop)
    (distinct : node.toJson.DistinctKeys)
    (reads : ∀ child, Node.PartOf child node → read child.toJson = some child) :
    Node.layer read node.toJson = some node := by
  cases node with
  | program body sourceType =>
      have statements := mapM_nodesToJson fun child member => reads child (.programStatement member)
      rw [Node.toJson, layer_encode (by decide) rfl]
      simp only [Node.ofFields?, statements, Json.optionalText?_map]
      rfl
  | expressionStatement expression =>
      have expressionRead := reads expression .expression
      rw [Node.toJson, layer_encode (by decide) rfl]
      simp only [Node.ofFields?, expressionRead]
      rfl
  | blockStatement body =>
      have statements := mapM_nodesToJson fun child member => reads child (.blockStatement member)
      rw [Node.toJson, layer_encode (by decide) rfl]
      simp only [Node.ofFields?, statements]
      rfl
  | returnStatement argument =>
      have returned := optional?_optionToJson argument fun child same =>
        reads child (same ▸ .returned)
      rw [Node.toJson, layer_encode (by decide) rfl]
      simp only [Node.ofFields?, returned]
      rfl
  | variableDeclaration declarations kind =>
      have declarators := mapM_nodesToJson fun child member => reads child (.declarator member)
      rw [Node.toJson, layer_encode (by decide) rfl]
      simp only [Node.ofFields?, declarators, VariableKind.ofJson?_name]
      rfl
  | variableDeclarator id init =>
      have declared := reads id .declared
      have initial := optional?_optionToJson init fun child same => reads child (same ▸ .initial)
      rw [Node.toJson, layer_encode (by decide) rfl]
      simp only [Node.ofFields?, declared, initial]
      rfl
  | identifier name =>
      rw [Node.toJson, layer_encode (by decide) rfl]
      rfl
  | privateIdentifier name =>
      rw [Node.toJson, layer_encode (by decide) rfl]
      rfl
  | literal value raw regex bigint =>
      have valueRead := LiteralValue.WellFormed.ofJson top
      have regexRead : Json.optional? RegexLiteral.ofJson? (regex.map RegexLiteral.toJson) =
          some regex := by
        cases regex <;> rfl
      rw [Node.toJson, layer_encode (by decide) rfl]
      simp only [Node.ofFields?, valueRead, regexRead, Json.optionalText?_map]
      rfl
  | templateLiteral quasis expressions =>
      have substitutions := mapM_nodesToJson fun child member => reads child (.substitution member)
      rw [Node.toJson, layer_encode (by decide) rfl]
      simp only [Node.ofFields?, mapM_templateElements, substitutions]
      rfl
  | taggedTemplate tag quasi =>
      have tagRead := reads tag .tag
      have quasiRead := reads quasi .quasi
      rw [Node.toJson, layer_encode (by decide) rfl]
      simp only [Node.ofFields?, tagRead, quasiRead]
      rfl
  | member object property computed optional =>
      have objectRead := reads object .object
      have propertyRead := reads property .property
      rw [Node.toJson, layer_encode (by decide) rfl]
      simp only [Node.ofFields?, objectRead, propertyRead]
      rfl
  | binary operator left right =>
      have leftRead := reads left .leftOperand
      have rightRead := reads right .rightOperand
      rw [Node.toJson, layer_encode (by decide) rfl]
      simp only [Node.ofFields?, leftRead, rightRead]
      rfl
  | assignment operator left right =>
      have leftRead := reads left .target
      have rightRead := reads right .assigned
      rw [Node.toJson, layer_encode (by decide) rfl]
      simp only [Node.ofFields?, leftRead, rightRead]
      rfl
  | call callee arguments optional =>
      have calleeRead := reads callee .callee
      have argumentsRead := mapM_nodesToJson fun child member => reads child (.argument member)
      rw [Node.toJson, layer_encode (by decide) rfl]
      simp only [Node.ofFields?, calleeRead, argumentsRead]
      rfl
  | array elements =>
      have elementsRead := items?_itemsToJson fun child member => reads child (.element member)
      rw [Node.toJson, layer_encode (by decide) rfl]
      simp only [Node.ofFields?, elementsRead]
      rfl
  | conditional test consequent alternate =>
      have testRead := reads test .test
      have consequentRead := reads consequent .consequent
      have alternateRead := reads alternate .alternate
      rw [Node.toJson, layer_encode (by decide) rfl]
      simp only [Node.ofFields?, testRead, consequentRead, alternateRead]
      rfl
  | other typeName fields =>
      refine layer_other top distinct ?_
      intro entry member
      obtain ⟨key, field⟩ := entry
      refine (top.2.2.2 (key, field) member).ofJson? ?_ ?_
      · intro child same
        subst same
        exact reads child (.fieldNode member)
      · intro items same child item
        subst same
        exact reads child (.fieldItem member item)

end

theorem ofJsonWithin?_toJson {node : Node} (wellFormed : node.WellFormed) {height : Nat}
    (enough : node.toJson.height ≤ height) :
    Node.ofJsonWithin? height node.toJson = some node := by
  induction wellFormed generalizing height with
  | @intro node top below ih =>
      cases height with
      | zero =>
          obtain ⟨entries, object⟩ := node.exists_toJson
          rw [object, Json.height] at enough
          omega
      | succ height =>
          refine layer_toJson top (Node.WellFormed.intro top below).distinctKeys ?_
          intro child part
          have lower := part.height_lt
          exact ih child part (by omega)

/-- A well-formed tree is what its JSON form describes. -/
theorem ofJson?_toJson {node : Node} (wellFormed : node.WellFormed) :
    Node.ofJson? node.toJson = some node :=
  ofJsonWithin?_toJson wellFormed (Nat.le_refl _)

theorem ofText_render {node : Node} (wellFormed : node.WellFormed)
    (shallow : node.toJson.height ≤ Json.maxNesting) (layout : Json.Layout) {ending : String}
    (blank : ∀ c ∈ ending.toList, Json.isBlank c = true) :
    Node.ofText (node.render layout ++ ending) = .ok node := by
  have value := Json.ofTokens_render shallow layout blank
  have tree := ofJson?_toJson wellFormed
  simp only [Node.ofText, Node.render, value, tree, List.isEmpty_nil, if_true]

/-- What is written for a well-formed tree is read as that tree, in either layout and under any
name, unless it is nested too deeply for the reader. -/
theorem ofNamedText_render {node : Node} (wellFormed : node.WellFormed)
    (shallow : node.toJson.height ≤ Json.maxNesting) (layout : Json.Layout) (origin : String) :
    Node.ofNamedText (node.render layout) origin = .ok node := by
  have read : Node.ofText (node.render layout ++ "") = .ok node :=
    ofText_render wellFormed shallow layout (by simp)
  rw [String.append_empty] at read
  rw [Node.ofNamedText, read]
  rfl

def mixedChunk : Node :=
  .other "Chunk"
    [("head", .node (.expressionStatement (.numberLiteral (.finite ⟨true, 0, by decide⟩)))),
      ("items", .nodes [none, some (.template ["a\n", "\""] [.identifier "x"])]),
      ("extra", .value (.object [("type", .null), ("range", .array [])]))]

theorem ofNamedText_render_mixedChunk :
    mixedChunk.WellFormed ∧ mixedChunk.toJson.height ≤ Json.maxNesting ∧
      Node.ofNamedText (mixedChunk.render .pretty) "<stdin>" = .ok mixedChunk := by
  have identifier : (Node.identifier "x").WellFormed :=
    .intro trivial fun _ part => nomatch part
  have zero : (Node.numberLiteral (.finite ⟨true, 0, by decide⟩)).WellFormed :=
    .intro ⟨_, rfl⟩ fun _ part => nomatch part
  have statement : (Node.expressionStatement
      (.numberLiteral (.finite ⟨true, 0, by decide⟩))).WellFormed := by
    refine .intro trivial fun child part => ?_
    cases part
    exact zero
  have template : (Node.template ["a\n", "\""] [.identifier "x"]).WellFormed := by
    refine .intro trivial fun child part => ?_
    cases List.mem_singleton.mp (Node.mem_children.mpr part)
    exact identifier
  have extra : (Json.object [("type", .null), ("range", .array [])]).DistinctKeys := by
    refine .object (by decide) ?_
    simp only [List.forall_mem_cons, List.not_mem_nil, false_implies, implies_true, and_true]
    exact ⟨.null, .array fun _ none => nomatch none⟩
  have wellFormed : mixedChunk.WellFormed := by
    refine .intro ⟨by decide, by decide, by decide, ?_⟩ fun child part => ?_
    · simp only [List.forall_mem_cons, List.not_mem_nil, false_implies, implies_true, and_true]
      refine ⟨trivial, ⟨_, List.mem_cons_of_mem _ List.mem_cons_self⟩, extra, ?_, ?_⟩
      · intro looksLikeNode
        obtain ⟨entries, typeName, same, member⟩ := looksLikeNode
        cases same
        simp at member
      · intro looksLikeNodes
        obtain ⟨items, same, _⟩ := looksLikeNodes
        cases same
    · have isChild := Node.mem_children.mpr part
      rcases List.mem_cons.mp isChild with rfl | isChild
      · exact statement
      · cases List.mem_singleton.mp isChild
        exact template
  have shallow : mixedChunk.toJson.height ≤ Json.maxNesting := by decide
  exact ⟨wellFormed, shallow, ofNamedText_render wellFormed shallow .pretty "<stdin>"⟩

end EstreeLowering
