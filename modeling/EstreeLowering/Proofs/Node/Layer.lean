import EstreeLowering.Proofs.Node.Fields

namespace EstreeLowering

section

variable {read read' : Json → Option Node} {bound : Nat}

theorem optional?_congr {given : Option Json} (same : ∀ value ∈ given, read value = read' value) :
    Json.optional? read given = Json.optional? read' given := by
  cases given with
  | none => rfl
  | some value =>
      cases value with
      | null => rfl
      | _ => exact congrArg (Option.map some) (same _ rfl)

theorem items?_congr {items : List Json} (same : ∀ item ∈ items, read item = read' item) :
    Json.items? read items = Json.items? read' items := by
  refine mapM_congr fun item member => optional?_congr fun value given => ?_
  cases given
  exact same item member

variable (same : ∀ value, value.height ≤ bound → read value = read' value)

include same

theorem FieldForm.read?_congr {form : FieldForm} {given : Option Json}
    (low : ∀ value ∈ given, value.height ≤ bound) :
    form.read? read given = form.read? read' given := by
  cases given with
  | none => cases form <;> rfl
  | some value =>
      have here := low value rfl
      cases form with
      | node => exact same value here
      | optionalNode => exact optional?_congr fun other given => same other (low other given)
      | nodes | items =>
          cases value with
          | array values =>
              have each : ∀ item ∈ values, read item = read' item := fun item member =>
                same item (Nat.le_trans (Nat.le_of_lt (Json.height_lt_array member)) here)
              first | exact mapM_congr each | exact items?_congr each
          | _ => rfl
      | segments => cases value <;> rfl
      | _ => rfl

theorem ofFields?_congr (kind : NodeKind) {values : List (Option Json)}
    (lengths : values.length = kind.fieldNames.length)
    (low : ∀ value, some value ∈ values → value.height ≤ bound) :
    Node.ofFields? read kind values = Node.ofFields? read' kind values := by
  rw [ofFields?_eq read lengths, ofFields?_eq read' lengths]
  refine congrArg (Option.bind · kind.assemble) (mapM_congr fun field member => ?_)
  obtain ⟨form, given⟩ := field
  apply congrArg (Option.map (FieldPart.mk form))
  refine FieldForm.read?_congr same fun value isGiven => ?_
  cases isGiven
  exact low value (List.of_mem_zip member).2

theorem Field.ofJson?_congr {value : Json} (low : value.height ≤ bound) :
    Field.ofJson? read value = Field.ofJson? read' value := by
  cases value with
  | array items =>
      have each : ∀ item ∈ items, read item = read' item := fun item member =>
        same item (Nat.le_trans (Nat.le_of_lt (Json.height_lt_array member)) low)
      rw [Field.ofJson?, Field.ofJson?, items?_congr each]
  | _ => simp only [Field.ofJson?, same _ low]

theorem otherOf?_congr {entries : List (String × Json)}
    (low : ∀ entry ∈ entries, entry.2.height ≤ bound) :
    Node.otherOf? read entries = Node.otherOf? read' entries := by
  refine congrArg (· >>= _) (mapM_congr fun entry member => ?_)
  have within := low entry (List.mem_of_mem_filter member)
  exact congrArg (Option.map _) (Field.ofJson?_congr same within)

end

section

variable {read read' : Json → Option Node} {value : Json}
  (same : ∀ inner, inner.height < value.height → read inner = read' inner)

include same

theorem tagged?_congr : Node.tagged? read value = Node.tagged? read' value := by
  cases value with
  | object entries =>
      have below : ∀ inner, inner.height ≤ Json.heightOfEntries entries →
          read inner = read' inner := fun inner low => same inner (Nat.lt_succ_of_le low)
      refine bind_congr fun kind => ?_
      cases named : Json.namedFields kind.fieldNames entries with
      | none => rfl
      | some values =>
          refine ofFields?_congr below kind (Json.length_namedFields named) fun inner given => ?_
          obtain ⟨_, isEntry⟩ := Json.exists_entry_of_namedFields named inner given
          exact Json.height_le_heightOfEntries isEntry
  | array items =>
      cases items with
      | nil => rfl
      | cons tag items =>
          have below : ∀ inner, inner.height ≤ Json.heightOfItems items →
              read inner = read' inner := fun inner low =>
            same inner (Nat.lt_succ_of_le (Nat.le_trans low (Nat.le_max_right _ _)))
          refine bind_congr fun kind => ?_
          cases listed : Json.listedFields kind.fieldNames items with
          | none => rfl
          | some values =>
              exact ofFields?_congr below kind (Json.length_listedFields listed)
                fun inner given => Json.height_le_heightOfItems
                  (Json.mem_items_of_listedFields listed inner given)
  | _ => rfl

theorem untagged?_congr : Node.untagged? read value = Node.untagged? read' value := by
  cases value with
  | object entries =>
      have below : ∀ inner, inner.height ≤ Json.heightOfEntries entries →
          read inner = read' inner := fun inner low => same inner (Nat.lt_succ_of_le low)
      -- The entries are merged first, which makes none of their values higher.
      refine otherOf?_congr below fun entry member => ?_
      have low := Json.height_le_heightOfEntries (Json.mem_of_mem_mergeKeys member)
      exact Nat.le_trans low (Json.height_mergedEntries_le entries)
  | _ => rfl

theorem Node.layer_congr : Node.layer read value = Node.layer read' value := by
  rw [layer, layer, tagged?_congr same, untagged?_congr same]

end

theorem layer_of_height_eq_zero {value : Json} (flat : value.height = 0)
    (read : Json → Option Node) : Node.layer read value = none := by
  cases value <;> first | rfl | cases flat

/-- A bound on the height that is not exceeded means nothing. -/
theorem ofJsonWithin?_congr {value : Json} {bound bound' : Nat} (enough : value.height ≤ bound)
    (enough' : value.height ≤ bound') :
    Node.ofJsonWithin? bound value = Node.ofJsonWithin? bound' value := by
  induction bound generalizing value bound' with
  | zero =>
      cases bound' with
      | zero => rfl
      | succ bound' => exact (layer_of_height_eq_zero (Nat.le_zero.mp enough) _).symm
  | succ bound ih =>
      cases bound' with
      | zero => exact layer_of_height_eq_zero (Nat.le_zero.mp enough') _
      | succ bound' =>
          exact Node.layer_congr fun inner lower => ih (by omega) (by omega)

theorem ofJson?_eq_layer (value : Json) : Node.ofJson? value = Node.layer Node.ofJson? value := by
  have enough : value.height ≤ value.height + 1 := Nat.le_succ _
  rw [Node.ofJson?, ofJsonWithin?_congr (Nat.le_refl _) enough]
  exact Node.layer_congr fun inner lower =>
    ofJsonWithin?_congr (Nat.le_of_lt lower) (Nat.le_refl _)

/-- What is read second is of no dedicated kind, whatever is in its fields. -/
theorem otherOf?_of_dedicated {read : Json → Option Node} {entries : List (String × Json)}
    {typeName : String} (typed : entries.lookup "type" = some (.string typeName))
    (dedicated : (NodeKind.ofName? typeName).isSome) : Node.otherOf? read entries = none := by
  simp [Node.otherOf?, typed, dedicated]

/-- An object that the first attempt knows by its tag is refused by the second one. -/
theorem untagged?_of_soleKind? {read : Json → Option Node} {entries : List (String × Json)}
    {kind : NodeKind} (sole : soleKind? entries = some kind) :
    Node.untagged? read (.object entries) = none := by
  obtain ⟨entry, single, tagged⟩ : ∃ entry, entries.filter (·.1 == "type") = [entry] ∧
      NodeKind.ofTag? entry.2 = some kind := by
    unfold soleKind? at sole
    split at sole
    · exact ⟨_, ‹_›, sole⟩
    · cases sole
  rw [Node.untagged?]
  cases typed : (Json.mergeKeys (Json.mergedEntries entries)).lookup "type" with
  | none => simp [Node.otherOf?, typed]
  | some value =>
      cases value with
      | string typeName =>
          -- The name comes from the only `type` of the object.
          have merged := Json.mem_of_mem_mergeKeys (Json.mem_of_lookup typed)
          obtain ⟨given, member, same⟩ := Json.exists_of_mem_mergedEntries merged
          have only : ("type", given) ∈ entries.filter (·.1 == "type") :=
            List.mem_filter.mpr ⟨member, rfl⟩
          rw [single, List.mem_singleton, Json.eq_string_of_merged same] at only
          rw [← only, NodeKind.ofTag?_string] at tagged
          exact otherOf?_of_dedicated typed (Option.isSome_of_eq_some tagged)
      | _ => simp [Node.otherOf?, typed]

/-- An object with one `type` that stands for a dedicated kind is read as a node of that kind or not
at all. -/
theorem layer_object (read : Json → Option Node) (entries : List (String × Json)) :
    Node.layer read (.object entries) =
      match soleKind? entries with
      | some kind => (Json.namedFields kind.fieldNames entries).bind (Node.ofFields? read kind)
      | none => Node.otherOf? read (Json.mergeKeys (Json.mergedEntries entries)) := by
  cases sole : soleKind? entries with
  | none => simp [Node.layer, Node.tagged?, Node.untagged?, sole]
  | some kind => simp [Node.layer, Node.tagged?, untagged?_of_soleKind? sole, sole]

/-- An array is read as its tag asks for or not at all. -/
theorem layer_array (read : Json → Option Node) (tag : Json) (items : List Json) :
    Node.layer read (.array (tag :: items)) = (NodeKind.ofTag? tag).bind fun kind =>
      (Json.listedFields kind.fieldNames items).bind (Node.ofFields? read kind) := by
  simp [Node.layer, Node.tagged?, Node.untagged?]

def Node.ofGiven? (kind : NodeKind) (fields : List (FieldForm × Option Json)) : Option Node :=
  (fields.mapM (FieldPart.read? Node.ofJson?)).bind kind.assemble

namespace NodeKind

def givenBy (entries : List (String × Json)) (fields : List (String × FieldForm)) :
    List (FieldForm × Option Json) :=
  fields.map fun field => (field.2, entries.lookup field.1)

def listed (kind : NodeKind) (items : List Json) : List (FieldForm × Option Json) :=
  kind.forms.zip (items.map some ++ List.replicate (kind.fields.length - items.length) none)

theorem forms_givenBy (entries : List (String × Json)) (fields : List (String × FieldForm)) :
    (givenBy entries fields).map (·.1) = fields.map (·.2) := by
  rw [givenBy, List.map_map]
  rfl

theorem length_fieldNames (kind : NodeKind) : kind.fieldNames.length = kind.fields.length := by
  rw [← names_fields, List.length_map]

end NodeKind

variable {kind : NodeKind} {entries : List (String × Json)}

theorem soleKind?_of_nodup (nodup : (entries.map (·.1)).Nodup) :
    soleKind? entries = (entries.lookup "type").bind NodeKind.ofTag? := by
  rw [soleKind?, Json.filter_key nodup]
  cases entries.lookup "type" <;> rfl

theorem ofJson?_dedicated (nodup : (entries.map (·.1)).Nodup)
    (dedicated : (entries.lookup "type").bind NodeKind.ofTag? = some kind) :
    Node.ofJson? (.object entries) = Node.ofGiven? kind (NodeKind.givenBy entries kind.fields) := by
  have named := Json.namedFields_of_nodup kind.fieldNames nodup
  have fields := ofFields?_eq Node.ofJson? (Json.length_namedFields named)
  rw [ofJson?_eq_layer, layer_object, soleKind?_of_nodup nodup, dedicated]
  simp only [named, Option.bind_some, fields]
  rw [← kind.names_fields, List.map_map, NodeKind.forms, List.zip_map']
  rfl

theorem ofJson?_of_name (dedicated : kind ≠ .other)
    (distinct : (Json.object entries).DistinctKeys)
    (typed : ("type", .string kind.name) ∈ entries) :
    Node.ofJson? (.object entries) = Node.ofGiven? kind (NodeKind.givenBy entries kind.fields) := by
  have nodup := (Json.distinctKeys_object_iff.mp distinct).1
  refine ofJson?_dedicated nodup ?_
  rw [Json.lookup_of_mem nodup typed]
  exact NodeKind.ofTag?_name dedicated

theorem ofJson?_listed {tag : Json} {items : List Json} (tagged : NodeKind.ofTag? tag = some kind) :
    Node.ofJson? (.array (tag :: items)) =
      if items.length ≤ kind.fields.length then Node.ofGiven? kind (kind.listed items)
      else none := by
  rw [ofJson?_eq_layer, layer_array, tagged, Option.bind_some, Json.listedFields,
    kind.length_fieldNames]
  split
  · rename_i enough
    refine ofFields?_eq _ ?_
    rw [kind.length_fieldNames, List.length_append, List.length_map, List.length_replicate]
    omega
  · rfl

theorem Field.ofJson?_of_isNodeObject {read : Json → Option Node} {value : Json}
    (looks : value.isNodeObject = true) : Field.ofJson? read value = (read value).map .node := by
  cases value with
  | array => cases looks
  | _ => simp only [Field.ofJson?, looks, if_true]

def Field.ofEntries? (entries : List (String × Json)) : Option (List (String × Field)) :=
  entries.mapM fun entry => (Field.ofJson? Node.ofJson? entry.2).map (entry.1, ·)

theorem ofJson?_undedicated {typeName : String} (distinct : (Json.object entries).DistinctKeys)
    (typed : entries.lookup "type" = some (.string typeName))
    (undedicated : NodeKind.ofName? typeName = none) :
    Node.ofJson? (.object entries) =
      (Field.ofEntries? (entries.filter (·.1 != "type"))).map (.other typeName) := by
  have merged := distinct.mergeKeys_mergedEntries
  cases distinct with
  | object nodup _ =>
      have sole : soleKind? entries = none := by
        rw [soleKind?_of_nodup nodup, typed, Option.bind_some, NodeKind.ofTag?_string]
        exact undedicated
      rw [ofJson?_eq_layer, layer_object, sole]
      simp only [merged, Node.otherOf?, typed, undedicated, Option.isSome_none, Bool.false_eq_true,
        if_false]
      exact Option.map_eq_bind.symm

end EstreeLowering
