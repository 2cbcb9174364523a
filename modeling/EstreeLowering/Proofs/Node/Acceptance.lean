import EstreeLowering.Proofs.Binary64.Decimal
import EstreeLowering.Proofs.Node.Fields
import EstreeLowering.Proofs.Node.WellFormed
import EstreeLowering.Run.Basic

/-!
Whatever is read is well-formed.

Every node that a reader of one layer puts below another one came from the reader it was given, so
the nodes below a node are as that reader makes them. What is left is the node itself. A dedicated
kind asks for nothing but its literal. For any other kind, merged keys are distinct, and a field
that is kept as raw JSON was not taken for a node or a list of nodes.
-/

namespace EstreeLowering

variable {read : Json → Option Node} {value : Json} {node : Node}

theorem LiteralValue.wellFormed_ofJson (value : Json) : (LiteralValue.ofJson value).WellFormed := by
  cases value with
  | number number =>
      cases number with
      | integer n inRange => exact Binary64.exists_ofInt inRange
      | real x => exact ⟨x, rfl⟩
  | array items => exact ⟨Json.distinctKeys_merged (.array items), .inl ⟨_, rfl⟩⟩
  | object entries => exact ⟨Json.distinctKeys_merged (.object entries), .inr ⟨_, rfl⟩⟩
  | _ => trivial

/-- What a field asks for of its own. -/
def FieldPart.WellFormed : FieldPart → Prop
  | ⟨.value, value⟩ => value.WellFormed
  | _ => True

theorem wellFormedTop_of_assemble {kind : NodeKind} {parts : List FieldPart}
    (assembled : kind.assemble parts = some node) (wellFormed : ∀ part ∈ parts, part.WellFormed) :
    node.WellFormedTop := by
  unfold NodeKind.assemble at assembled
  split at assembled <;> cases assembled
  case h_9 => exact wellFormed _ List.mem_cons_self
  all_goals trivial

section

variable {P : Node → Prop} (reads : ∀ value node, read value = some node → P node)

include reads

theorem forall_of_optional? {given : Option Json} {item : Option Node}
    (accepted : Json.optional? read given = some item) : ∀ child ∈ item, P child := by
  unfold Json.optional? at accepted
  split at accepted
  · cases accepted
    exact fun _ none => nomatch none
  · cases accepted
    exact fun _ none => nomatch none
  · rename_i value _
    obtain ⟨child, childRead, rfl⟩ := Option.map_eq_some_iff.mp accepted
    intro other same
    cases same
    exact reads value child childRead

theorem forall_of_items? {items : List Json} {results : List (Option Node)}
    (accepted : Json.items? read items = some results) :
    ∀ child ∈ results.filterMap id, P child := by
  intro child isChild
  have each := forall_of_mapM accepted fun item _ => forall_of_optional? reads
  exact each (some child) (Node.mem_filterMap_items.mp isChild) child rfl

theorem wellFormed_of_read? {field : FieldForm × Option Json} {part : FieldPart}
    (accepted : FieldPart.read? read field = some part) :
    part.WellFormed ∧ ∀ child ∈ part.nodes, P child := by
  obtain ⟨form, given⟩ := field
  obtain ⟨content, contentRead, rfl⟩ := Option.map_eq_some_iff.mp accepted
  cases form with
  | node =>
      obtain ⟨_, _, nodeRead⟩ := Option.bind_eq_some_iff.mp contentRead
      exact ⟨trivial, List.forall_mem_singleton.mpr (reads _ _ nodeRead)⟩
  | optionalNode =>
      have only := forall_of_optional? reads contentRead
      exact ⟨trivial, fun child member => only child (Option.mem_toList.mp member)⟩
  | nodes =>
      rcases given with _ | (_ | _ | _ | _ | values | _) <;> try cases contentRead
      exact ⟨trivial, forall_of_mapM contentRead reads⟩
  | items =>
      rcases given with _ | (_ | _ | _ | _ | values | _) <;> try cases contentRead
      exact ⟨trivial, forall_of_items? reads contentRead⟩
  | value =>
      obtain ⟨_, _, rfl⟩ := Option.map_eq_some_iff.mp contentRead
      exact ⟨LiteralValue.wellFormed_ofJson _, fun _ none => nomatch none⟩
  | _ => exact ⟨trivial, fun _ none => nomatch none⟩

/-- The nodes in a node of a dedicated kind were read as nodes. -/
theorem forall_of_ofFields? {kind : NodeKind} {values : List (Option Json)}
    (lengths : values.length = kind.fieldNames.length)
    (accepted : Node.ofFields? read kind values = some node) :
    node.WellFormedTop ∧ ∀ child ∈ node.children, P child := by
  rw [ofFields?_eq read lengths] at accepted
  obtain ⟨parts, partsRead, assembled⟩ := Option.bind_eq_some_iff.mp accepted
  have each := forall_of_mapM partsRead fun _ _ => wellFormed_of_read? reads
  refine ⟨wellFormedTop_of_assemble assembled fun part member => (each part member).1, ?_⟩
  rw [(NodeKind.kind_of_assemble assembled).2]
  exact List.forall_mem_flatMap.mpr fun part member => (each part member).2

end

theorem isNodeObject_of_looksLikeNode (distinct : value.DistinctKeys)
    (looksLikeNode : value.LooksLikeNode) : value.isNodeObject = true := by
  obtain ⟨entries, typeName, rfl, member⟩ := looksLikeNode
  apply Json.isNodeObject_of_lookup
  exact Json.lookup_of_mem (Json.distinctKeys_object_iff.mp distinct).1 member

theorem areNodes_of_looksLikeNodes {items : List Json} (distinct : (Json.array items).DistinctKeys)
    (looksLikeNodes : (Json.array items).LooksLikeNodes) : Json.areNodes items = true := by
  obtain ⟨_, same, ⟨item, member, first⟩, all⟩ := looksLikeNodes
  cases same
  have within := Json.distinctKeys_array_iff.mp distinct
  have here := isNodeObject_of_looksLikeNode (within item member) first
  refine Json.areNodes_iff.mpr ⟨⟨item, member, here⟩, fun other given => ?_⟩
  exact (all other given).imp_right (isNodeObject_of_looksLikeNode (within other given))

theorem exists_item_of_areNodes {items : List Json} {results : List (Option Node)}
    (nodes : Json.areNodes items = true) (accepted : Json.items? read items = some results) :
    ∃ node, some node ∈ results := by
  obtain ⟨⟨item, member, nodeObject⟩, _⟩ := Json.areNodes_iff.mp nodes
  obtain ⟨result, given, itemRead⟩ := exists_result_of_mapM accepted item member
  cases item with
  | object entries =>
      obtain ⟨node, _, rfl⟩ := Option.map_eq_some_iff.mp itemRead
      exact ⟨node, given⟩
  | _ => cases nodeObject

theorem wellFormed_field {P : Node → Prop} (reads : ∀ value node, read value = some node → P node)
    {field : Field} (distinct : value.DistinctKeys)
    (accepted : Field.ofJson? read value = some field) :
    field.WellFormed ∧ ∀ child ∈ field.children, P child := by
  unfold Field.ofJson? at accepted
  split at accepted
  · rename_i items
    split at accepted
    · rename_i nodes
      obtain ⟨results, itemsRead, rfl⟩ := Option.map_eq_some_iff.mp accepted
      exact ⟨exists_item_of_areNodes nodes itemsRead, forall_of_items? reads itemsRead⟩
    · rename_i noNodes
      cases accepted
      refine ⟨⟨distinct, fun impossible => ?_, fun looksLikeNodes => ?_⟩, by simp [Field.children]⟩
      · obtain ⟨_, _, impossible, _⟩ := impossible
        cases impossible
      · exact noNodes (areNodes_of_looksLikeNodes distinct looksLikeNodes)
  · rename_i noArray
    split at accepted
    · obtain ⟨node, nodeRead, rfl⟩ := Option.map_eq_some_iff.mp accepted
      exact ⟨trivial, by simpa [Field.children] using reads _ _ nodeRead⟩
    · rename_i noNode
      cases accepted
      refine ⟨⟨distinct, fun looksLikeNode => ?_, fun impossible => ?_⟩, by simp [Field.children]⟩
      · exact noNode (isNodeObject_of_looksLikeNode distinct looksLikeNode)
      · obtain ⟨items, impossible, _⟩ := impossible
        exact noArray items impossible

theorem keys_of_mapM {entries : List (String × Json)} {fields : List (String × Field)}
    (accepted : entries.mapM (fun (key, value) => (Field.ofJson? read value).map (key, ·)) =
      some fields) : fields.map (·.1) = entries.map (·.1) := by
  have each := forall₂_of_mapM accepted
  clear accepted
  induction each with
  | nil => rfl
  | cons first _ ih =>
      obtain ⟨field, _, rfl⟩ := Option.map_eq_some_iff.mp first
      rw [List.map_cons, List.map_cons, ih]

theorem forall_of_otherOf? {P : Node → Prop} (reads : ∀ value node, read value = some node → P node)
    {entries : List (String × Json)} (distinct : (Json.object entries).DistinctKeys)
    (accepted : Node.otherOf? read entries = some node) :
    node.WellFormedTop ∧ ∀ child ∈ node.children, P child := by
  obtain ⟨fields, fieldsRead, accepted⟩ := Option.bind_eq_some_iff.mp accepted
  split at accepted
  · rename_i typeName _
    split at accepted
    · cases accepted
    · rename_i unknown
      cases accepted
      cases distinct with
      | object nodup within =>
          have keys := keys_of_mapM fieldsRead
          have each : ∀ entry ∈ fields,
              entry.2.WellFormed ∧ ∀ child ∈ entry.2.children, P child := by
            intro entry member
            obtain ⟨source, given, sourceRead⟩ := exists_item_of_mapM fieldsRead entry member
            obtain ⟨field, fieldRead, rfl⟩ := Option.map_eq_some_iff.mp sourceRead
            exact wellFormed_field reads (within source (List.mem_of_mem_filter given)) fieldRead
          refine ⟨⟨?_, ?_, ?_, fun entry member => (each entry member).1⟩, ?_⟩
          · exact NodeKind.ofName?_eq_none_iff.mp (by simpa using unknown)
          · rw [keys]
            exact nodup.sublist (List.filter_sublist.map _)
          · rw [keys]
            simp
          · intro child isChild
            obtain ⟨entry, member, within⟩ := List.mem_flatMap.mp isChild
            exact (each entry member).2 child within
  · cases accepted

theorem wellFormed_tagged? (reads : ∀ value node, read value = some node → node.WellFormed)
    (accepted : Node.tagged? read value = some node) : node.WellFormed := by
  rw [Node.wellFormed_iff]
  unfold Node.tagged? at accepted
  split at accepted
  · obtain ⟨kind, _, accepted⟩ := Option.bind_eq_some_iff.mp accepted
    obtain ⟨values, named, fieldsRead⟩ := Option.bind_eq_some_iff.mp accepted
    exact forall_of_ofFields? reads (Json.length_namedFields named) fieldsRead
  · obtain ⟨kind, _, accepted⟩ := Option.bind_eq_some_iff.mp accepted
    obtain ⟨values, listed, fieldsRead⟩ := Option.bind_eq_some_iff.mp accepted
    exact forall_of_ofFields? reads (Json.length_listedFields listed) fieldsRead
  · cases accepted

theorem wellFormed_untagged? (reads : ∀ value node, read value = some node → node.WellFormed)
    (accepted : Node.untagged? read value = some node) : node.WellFormed := by
  rw [Node.wellFormed_iff]
  unfold Node.untagged? at accepted
  split at accepted
  · rename_i entries
    exact forall_of_otherOf? reads (Json.distinctKeys_merged (.object entries)) accepted
  · cases accepted

theorem wellFormed_layer (reads : ∀ value node, read value = some node → node.WellFormed)
    (accepted : Node.layer read value = some node) : node.WellFormed := by
  unfold Node.layer at accepted
  cases first : Node.tagged? read value with
  | some other =>
      rw [first] at accepted
      cases accepted
      exact wellFormed_tagged? reads first
  | none =>
      rw [first] at accepted
      exact wellFormed_untagged? reads accepted

theorem wellFormed_ofJsonWithin? {height : Nat}
    (accepted : Node.ofJsonWithin? height value = some node) : node.WellFormed := by
  induction height generalizing value node with
  | zero => cases accepted
  | succ height ih => exact wellFormed_layer (fun _ _ => ih) accepted

/-- The tree that a text is accepted as is well-formed. -/
theorem wellFormed_ofNamedText {text origin : String} {tree : Node}
    (accepted : Node.ofNamedText text origin = .ok tree) : tree.WellFormed := by
  unfold Node.ofNamedText Failure.ofFault Node.ofText at accepted
  split at accepted
  · rename_i textRead
    cases accepted
    split at textRead
    · cases textRead
    · split at textRead
      · cases textRead
      · rename_i valueRead
        split at textRead
        · cases textRead
          exact wellFormed_ofJsonWithin? valueRead
        · cases textRead
  · cases accepted

end EstreeLowering
