import EstreeLowering.Proofs.Node.Layer
import EstreeLowering.Proofs.Node.WellFormed

namespace EstreeLowering

namespace Json

mutual

/-- The value with `type` in front of the other keys in every node in it. -/
def typesFirst : Json → Json
  | .object entries =>
      match entries.lookup "type" with
      | some (.string typeName) =>
          .object (("type", .string typeName) :: (entriesTypesFirst entries).filter (·.1 != "type"))
      | _ => .object entries
  | .array items => .array (if areNodes items then itemsTypesFirst items else items)
  | value => value

def itemsTypesFirst : List Json → List Json
  | [] => []
  | item :: items => item.typesFirst :: itemsTypesFirst items

def entriesTypesFirst : List (String × Json) → List (String × Json)
  | [] => []
  | (key, value) :: entries => (key, value.typesFirst) :: entriesTypesFirst entries

end

theorem itemsTypesFirst_eq_map (items : List Json) :
    itemsTypesFirst items = items.map typesFirst := by
  induction items with
  | nil => rw [itemsTypesFirst, List.map_nil]
  | cons item items ih => rw [itemsTypesFirst, ih, List.map_cons]

theorem entriesTypesFirst_eq_map (entries : List (String × Json)) :
    entriesTypesFirst entries = entries.map fun entry => (entry.1, entry.2.typesFirst) := by
  induction entries with
  | nil => rw [entriesTypesFirst, List.map_nil]
  | cons entry entries ih => rw [entriesTypesFirst, ih, List.map_cons]

/-- The values that a field of an undedicated kind has for nodes. -/
def nodesInField : Json → List Json
  | .array items => if areNodes items then items.filter isNodeObject else []
  | value => if value.isNodeObject then [value] else []

/-- A node none of whose parts, itself included, is of a dedicated kind. -/
inductive Undedicated : Json → Prop
  | intro {entries typeName} (typed : entries.lookup "type" = some (.string typeName))
      (undedicated : ∀ kind ∈ NodeKind.dedicated, kind.name ≠ typeName)
      (below : ∀ entry ∈ entries, entry.1 ≠ "type" →
        ∀ node ∈ entry.2.nodesInField, Undedicated node) : Undedicated (.object entries)

theorem nodesInField_of_isNodeObject {value : Json} (looks : value.isNodeObject = true) :
    value.nodesInField = [value] := by
  cases value with
  | object => exact if_pos looks
  | _ => cases looks

end Json

variable {value : Json} {entries : List (String × Json)} {typeName : String}

theorem exists_node_of_field {written : Json} (looks : value.isNodeObject = true)
    (field : ∃ field, Field.ofJson? Node.ofJson? value = some field ∧ field.toJson = written) :
    ∃ node, Node.ofJson? value = some node ∧ node.toJson = written := by
  obtain ⟨field, read, rfl⟩ := field
  rw [Field.ofJson?_of_isNodeObject looks] at read
  obtain ⟨node, nodeRead, rfl⟩ := Option.map_eq_some_iff.mp read
  exact ⟨node, nodeRead, rfl⟩

theorem exists_items_typesFirst {items : List Json} (areNodes : Json.areNodes items = true)
    (reads : ∀ item ∈ items, item.isNodeObject = true →
      ∃ node, Node.ofJson? item = some node ∧ node.toJson = item.typesFirst) :
    ∃ results, Json.items? Node.ofJson? items = some results ∧
      itemsToJson results = items.map Json.typesFirst := by
  have either := (Json.areNodes_iff.mp areNodes).2
  have each : ∀ item ∈ items, ∃ result, Json.optional? Node.ofJson? (some item) = some result ∧
      optionToJson result = item.typesFirst := by
    intro item member
    rcases either item member with rfl | looks
    · exact ⟨none, rfl, rfl⟩
    · have present : item ≠ .null := by
        rintro rfl
        cases looks
      obtain ⟨node, read, written⟩ := reads item member looks
      exact ⟨some node, by rw [Json.optional?_of_ne_null present, read]; rfl, written⟩
  obtain ⟨results, read, written⟩ := exists_mapM each
  exact ⟨results, read, (itemsToJson_eq_map results).trans written⟩

theorem exists_other_typesFirst (distinct : (Json.object entries).DistinctKeys)
    (typed : entries.lookup "type" = some (.string typeName))
    (undedicated : NodeKind.ofName? typeName = none)
    (reads : ∀ entry ∈ entries, entry.1 ≠ "type" → ∃ field,
      Field.ofJson? Node.ofJson? entry.2 = some field ∧ field.toJson = entry.2.typesFirst) :
    ∃ node, Node.ofJson? (.object entries) = some node ∧
      node.toJson = (Json.object entries).typesFirst := by
  have each : ∀ entry ∈ entries.filter (·.1 != "type"), ∃ field,
      (Field.ofJson? Node.ofJson? entry.2).map (entry.1, ·) = some field ∧
        (field.1, field.2.toJson) = (entry.1, entry.2.typesFirst) := by
    intro entry member
    obtain ⟨member, another⟩ := List.mem_filter.mp member
    obtain ⟨field, read, written⟩ := reads entry member (bne_iff_ne.mp another)
    exact ⟨(entry.1, field), by rw [read]; rfl, by rw [written]⟩
  obtain ⟨fields, read, written⟩ := exists_mapM each
  refine ⟨.other typeName fields, ?_, ?_⟩
  · rw [ofJson?_undedicated distinct typed undedicated, Field.ofEntries?, read]
    rfl
  · rw [Node.toJson, fieldsToJson_eq_map, written, Json.typesFirst, typed]
    simp only [Json.entriesTypesFirst_eq_map, List.filter_map]
    rfl

theorem exists_field_typesFirst (distinct : value.DistinctKeys)
    (undedicated : ∀ node ∈ value.nodesInField, node.Undedicated) :
    ∃ field, Field.ofJson? Node.ofJson? value = some field ∧ field.toJson = value.typesFirst := by
  -- A value that has no nodes is raw JSON in the field and stays as it is in the normal form.
  induction distinct with
  | null | boolean | number | string => exact ⟨.value _, rfl, rfl⟩
  | @array items within ih =>
      by_cases areNodes : Json.areNodes items = true
      · rw [Json.nodesInField, if_pos areNodes] at undedicated
        have reads : ∀ item ∈ items, item.isNodeObject = true →
            ∃ node, Node.ofJson? item = some node ∧ node.toJson = item.typesFirst := by
          intro item member looks
          refine exists_node_of_field looks (ih item member ?_)
          rw [Json.nodesInField_of_isNodeObject looks, List.forall_mem_singleton]
          exact undedicated item (List.mem_filter.mpr ⟨member, looks⟩)
        obtain ⟨results, read, written⟩ := exists_items_typesFirst areNodes reads
        refine ⟨.nodes results, ?_, ?_⟩
        · rw [Field.ofJson?, if_pos areNodes, read]
          rfl
        · rw [Field.toJson, written, Json.typesFirst, if_pos areNodes, Json.itemsTypesFirst_eq_map]
      · refine ⟨.value (.array items), ?_, ?_⟩
        · rw [Field.ofJson?, if_neg areNodes]
        · rw [Field.toJson, Json.typesFirst, if_neg areNodes]
  | @object entries nodup within ih =>
      by_cases looks : (Json.object entries).isNodeObject = true
      · rw [Json.nodesInField_of_isNodeObject looks, List.forall_mem_singleton] at undedicated
        cases undedicated with
        | intro typed undedicated below =>
            have reads := fun entry member another => ih entry member (below entry member another)
            obtain ⟨node, read, written⟩ := exists_other_typesFirst (.object nodup within) typed
              (NodeKind.ofName?_eq_none_iff.mpr undedicated) reads
            exact ⟨.node node, by rw [Field.ofJson?_of_isNodeObject looks, read]; rfl, written⟩
      · refine ⟨.value (.object entries), by simp [Field.ofJson?, looks], ?_⟩
        rw [Field.toJson, Json.typesFirst]
        split
        · rename_i typed
          exact absurd (Json.isNodeObject_of_lookup typed) looks
        · rfl

theorem isNodeObject_of_undedicated (undedicated : value.Undedicated) :
    value.isNodeObject = true := by
  cases undedicated with
  | intro typed => exact Json.isNodeObject_of_lookup typed

/-- A tree of undedicated kinds is read, and written as it was but for `type` in front of each of
its nodes. -/
theorem toJson_of_undedicated (distinct : value.DistinctKeys) (undedicated : value.Undedicated) :
    ∃ node, Node.ofJson? value = some node ∧ node.toJson = value.typesFirst := by
  have looks := isNodeObject_of_undedicated undedicated
  refine exists_node_of_field looks (exists_field_typesFirst distinct ?_)
  rwa [Json.nodesInField_of_isNodeObject looks, List.forall_mem_singleton]

/-- Nodes, a hole, and raw JSON that looks like nodes in part. -/
theorem toJson_of_undedicated_chunk :
    let loc : Json := .object [("type", .null), ("start", .number (.integer 0 (by decide)))]
    let mixed : Json := .array [.object [("type", .string "Identifier")], .boolean true]
    let chunk : Json := .object
      [("loc", loc), ("mixed", mixed), ("holes", .array [.null]),
        ("body", .array [.null, .object [("range", .array []), ("type", .string "Empty")]]),
        ("type", .string "Chunk"), ("test", .object [("loc", loc), ("type", .string "This")])]
    let written : Json := .object
      [("type", .string "Chunk"), ("loc", loc), ("mixed", mixed), ("holes", .array [.null]),
        ("body", .array [.null, .object [("type", .string "Empty"), ("range", .array [])]]),
        ("test", .object [("type", .string "This"), ("loc", loc)])]
    chunk.DistinctKeys ∧ chunk.Undedicated ∧ chunk.typesFirst = written ∧
      ∃ node, Node.ofJson? chunk = some node ∧ node.toJson = written := by
  intro loc mixed chunk written
  have distinct : chunk.DistinctKeys := Json.distinctKeys_iff_merged.mpr rfl
  have leaf {entries : List (String × Json)} {typeName : String}
      (typed : entries.lookup "type" = some (.string typeName))
      (undedicated : ∀ kind ∈ NodeKind.dedicated, kind.name ≠ typeName)
      (flat : ∀ entry ∈ entries, entry.2.nodesInField = [] ∨ entry.1 = "type") :
      (Json.object entries).Undedicated := by
    refine .intro typed undedicated fun entry member another node inField => ?_
    rw [(flat entry member).resolve_right another] at inField
    cases inField
  have empty : (Json.object [("range", .array []), ("type", .string "Empty")]).Undedicated :=
    leaf rfl (by decide) (by simp [Json.nodesInField, Json.areNodes])
  have nested : (Json.object [("loc", loc), ("type", .string "This")]).Undedicated :=
    leaf rfl (by decide) (by simp [loc, Json.nodesInField, Json.isNodeObject, Json.get?])
  have undedicated : chunk.Undedicated := by
    refine .intro rfl (by decide) fun entry member another node inField => ?_
    fin_cases member
    · cases inField
    · cases inField
    · cases inField
    · obtain rfl := List.mem_singleton.mp inField
      exact empty
    · exact absurd rfl another
    · obtain rfl := List.mem_singleton.mp inField
      exact nested
  have same : chunk.typesFirst = written := rfl
  exact ⟨distinct, undedicated, same, same ▸ toJson_of_undedicated distinct undedicated⟩

end EstreeLowering
