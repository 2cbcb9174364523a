import EstreeLowering.Proofs.Data.Through
import EstreeLowering.Proofs.Json.Place
import EstreeLowering.Proofs.Node.Layer
import EstreeLowering.Proofs.Node.Position

namespace EstreeLowering

open Json (Surrounding plug)

inductive FieldForm.NodeAt : FieldForm → List Surrounding → Prop
  | node : NodeAt .node []
  | optionalNode : NodeAt .optionalNode []
  | listed {before behind} : NodeAt .nodes [.item before behind]
  | item {before behind} : NodeAt .items [.item before behind]

/-- One step from a node of that kind down to a value that stands for another node. -/
inductive NodeStep : NodeKind → List Surrounding → Json → Prop
  | named {kind before key behind form inner value}
      (typed : ((before ++ behind).lookup "type").bind NodeKind.ofTag? = some kind)
      (field : (key, form) ∈ kind.fields) (position : form.NodeAt inner) :
      NodeStep kind (.entry before key behind :: inner) value
  | listed {kind tag before behind form inner value}
      (tagged : NodeKind.ofTag? tag = some kind) (field : kind.forms[before.length]? = some form)
      (position : form.NodeAt inner) :
      NodeStep kind (.item (tag :: before) behind :: inner) value
  | field {typeName before key behind value}
      (typed : (before ++ behind).lookup "type" = some (.string typeName))
      (undedicated : NodeKind.ofName? typeName = none) (looks : value.isNodeObject = true) :
      NodeStep .other [.entry before key behind] value
  | item {typeName before key behind front back value}
      (typed : (before ++ behind).lookup "type" = some (.string typeName))
      (undedicated : NodeKind.ofName? typeName = none)
      (others : ∀ other ∈ front ++ back, other = .null ∨ other.isNodeObject = true)
      (looks : value.isNodeObject = true) :
      NodeStep .other [.entry before key behind, .item front back] value

/-- A value stands for a node at that place in a tree, below a node of that kind or at the root. -/
inductive NodePlace : List Surrounding → Option NodeKind → Json → Prop
  | root {value} : NodePlace [] none value
  | inside {place parent kind inner value} (outer : NodePlace place parent (plug inner value))
      (last : NodeStep kind inner value) : NodePlace (place ++ inner) (some kind) value

theorem FieldForm.NodeAt.readsThrough {form : FieldForm} {inner : List Surrounding}
    (position : form.NodeAt inner) :
    ReadsThrough (· ≠ .null)
      (fun (node : Node) (content : form.Content) => node ∈ FieldPart.nodes ⟨form, content⟩)
      Node.ofJson? fun value => form.read? Node.ofJson? (some (plug inner value)) := by
  cases position with
  | node => exact .refl fun node => List.mem_singleton_self node
  | optionalNode =>
      refine ⟨some some, ?_, fun value given => Json.optional?_of_ne_null given⟩
      intro wrap isWrap node
      cases isWrap
      exact List.mem_singleton_self node
  | @listed before behind =>
      refine ((readsThrough_mapM Node.ofJson? before behind).mono ?_).comp id fun _ _ => trivial
      rintro node _ ⟨front, back, _, _, rfl⟩
      exact List.mem_append_right front List.mem_cons_self
  | @item before behind =>
      let reader := fun item => Json.optional? Node.ofJson? (some item)
      have items : ReadsThrough (· ≠ .null) _ (fun value => (Node.ofJson? value).map some) _ :=
        ((readsThrough_mapM reader before behind).comp id fun _ _ => trivial).congr
          (fun value given => (Json.optional?_of_ne_null given).symm) fun _ _ => rfl
      refine (items.of_map some).mono ?_
      rintro node _ ⟨front, back, _, _, rfl⟩
      simp [FieldPart.nodes]

theorem forms_of_mapM {read : Json → Option Node} {fields : List (FieldForm × Option Json)}
    {parts : List FieldPart} (accepted : fields.mapM (FieldPart.read? read) = some parts) :
    parts.map (·.form) = fields.map (·.1) := by
  have each := forall₂_of_mapM accepted
  clear accepted
  induction each with
  | nil => rfl
  | cons first _ ih =>
      obtain ⟨content, _, rfl⟩ := Option.map_eq_some_iff.mp first
      rw [List.map_cons, List.map_cons, ih]

theorem readsThrough_ofGiven? {kind : NodeKind} {front back : List (FieldForm × Option Json)}
    {form : FieldForm} (dedicated : kind ≠ .other)
    (forms : front.map (·.1) ++ form :: back.map (·.1) = kind.forms) :
    ReadsThrough (fun _ => True)
      (fun content node => ∀ child ∈ FieldPart.nodes ⟨form, content⟩, child ∈ node.children)
      (form.read? Node.ofJson?)
      fun given => Node.ofGiven? kind (front ++ (form, given) :: back) := by
  have fields : ReadsThrough (fun _ => True) _ (fun given => FieldPart.read? Node.ofJson?
      (form, given)) _ :=
    (readsThrough_mapM (FieldPart.read? Node.ofJson?) front back).comp (form, ·) fun _ _ => trivial
  refine (fields.of_map (FieldPart.mk form)).bind kind.assemble ?_
  rintro content _ ⟨before, behind, frontRead, backRead, rfl⟩
  have partForms : (before ++ ⟨form, content⟩ :: behind).map FieldPart.form = kind.forms := by
    rw [List.map_append, List.map_cons, forms_of_mapM frontRead, forms_of_mapM backRead]
    exact forms
  obtain ⟨node, assembled⟩ := NodeKind.exists_assemble dedicated partForms
  refine ⟨node, assembled, fun child within => ?_⟩
  rw [(NodeKind.kind_of_assemble assembled).2, List.mem_flatMap]
  exact ⟨⟨form, content⟩, List.mem_append_right before List.mem_cons_self, within⟩

theorem readsThrough_undedicated {typeName : String} {before behind : List (String × Json)}
    {key : String} (typed : (before ++ behind).lookup "type" = some (.string typeName))
    (undedicated : NodeKind.ofName? typeName = none) :
    ReadsThrough (fun value => (Json.object (before ++ (key, value) :: behind)).DistinctKeys)
      (fun field node => ∃ front back, node = .other typeName (front ++ (key, field) :: back))
      (Field.ofJson? Node.ofJson?)
      fun value => Node.ofJson? (.object (before ++ (key, value) :: behind)) := by
  let reader := fun entry : String × Json =>
    (Field.ofJson? Node.ofJson? entry.2).map (entry.1, ·)
  let others := fun entries : List (String × Json) => entries.filter (·.1 != "type")
  have fields : ReadsThrough
      (fun value => (Json.object (before ++ (key, value) :: behind)).DistinctKeys) _
      (fun value => (Field.ofJson? Node.ofJson? value).map (key, ·)) _ :=
    (readsThrough_mapM reader (others before) (others behind)).comp (key, ·) fun _ _ => trivial
  refine ((fields.of_map (key, ·)).bind (fun fields => some (Node.other typeName fields)) ?_).congr
    (fun _ _ => rfl) fun value distinct => ?_
  · rintro field _ ⟨front, back, _, _, rfl⟩
    exact ⟨_, rfl, front, back, rfl⟩
  have nodup := (Json.distinctKeys_object_iff.mp distinct).1
  have another := Json.key_ne_of_lookup nodup typed
  have found : (before ++ (key, value) :: behind).lookup "type" = some (.string typeName) := by
    rw [Json.lookup_around another, typed]
  rw [ofJson?_undedicated distinct found undedicated, List.filter_append,
    List.filter_cons_of_pos (by simpa using another.symm)]
  exact Option.map_eq_bind

/-- What may be put where a node stands below a parent of that kind. -/
def MayStand (parent : Option NodeKind) (value : Json) : Prop :=
  value.DistinctKeys ∧ value ≠ .null ∧ (parent = some .other → value.isNodeObject = true)

section

variable {kind : NodeKind} {before behind : List (String × Json)} {key : String} {form : FieldForm}

theorem ofJson?_named {front back : List (String × FieldForm)} {value : Json}
    (nodup : ((before ++ (key, value) :: behind).map (·.1)).Nodup)
    (typed : ((before ++ behind).lookup "type").bind NodeKind.ofTag? = some kind)
    (fields : kind.fields = front ++ (key, form) :: back) :
    Node.ofJson? (.object (before ++ (key, value) :: behind)) =
      Node.ofGiven? kind (NodeKind.givenBy (before ++ behind) front ++
        (form, some value) :: NodeKind.givenBy (before ++ behind) back) := by
  obtain ⟨tag, looked, _⟩ := Option.bind_eq_some_iff.mp typed
  have another := Json.key_ne_of_lookup nodup looked
  rw [← Json.lookup_around another value] at typed
  have own : (before ++ (key, value) :: behind).lookup key = some value :=
    Json.lookup_of_mem nodup (by simp)
  -- No other field of the kind has that name, so the value makes no difference to it.
  have names := kind.nodup_fieldNames
  rw [← kind.names_fields, fields, List.map_append, List.map_cons, List.nodup_middle,
    List.nodup_cons, List.mem_append, not_or] at names
  have others {fields : List (String × FieldForm)} (fresh : key ∉ fields.map (·.1)) :
      NodeKind.givenBy (before ++ (key, value) :: behind) fields =
        NodeKind.givenBy (before ++ behind) fields := by
    refine List.map_congr_left fun field member => ?_
    have different : field.1 ≠ key := fun same => fresh (same ▸ List.mem_map_of_mem member)
    rw [Json.lookup_around different]
  rw [ofJson?_dedicated nodup typed, fields, ← others names.1.1, ← others names.1.2]
  simp only [NodeKind.givenBy, List.map_append, List.map_cons, own]

theorem ofJson?_listed_around {tag : Json} {before : List Json} {front back : List FieldForm}
    (tagged : NodeKind.ofTag? tag = some kind) (forms : kind.forms = front ++ form :: back)
    (lengths : front.length = before.length) (value : Json) (behind : List Json) :
    Node.ofJson? (.array (tag :: (before ++ value :: behind))) =
      if before.length + behind.length < kind.fields.length then
        Node.ofGiven? kind (front.zip (before.map some) ++ (form, some value) ::
          back.zip (behind.map some ++ List.replicate
            (kind.fields.length - (before.length + behind.length + 1)) none))
      else none := by
  have size : (before ++ value :: behind).length = before.length + behind.length + 1 := by
    simp only [List.length_append, List.length_cons]
    omega
  have listed : kind.listed (before ++ value :: behind) =
      front.zip (before.map some) ++ (form, some value) :: back.zip (behind.map some ++
        List.replicate (kind.fields.length - (before.length + behind.length + 1)) none) := by
    rw [NodeKind.listed, forms, size, List.map_append, List.append_assoc,
      List.zip_append (by simpa using lengths)]
    rfl
  rw [ofJson?_listed tagged, listed, size]
  rfl

end

theorem readsThrough_position {kind : NodeKind} {front back : List (FieldForm × Option Json)}
    {form : FieldForm} {inner : List Surrounding} (dedicated : kind ≠ .other)
    (forms : front.map (·.1) ++ form :: back.map (·.1) = kind.forms)
    (position : form.NodeAt inner) :
    ReadsThrough (MayStand (some kind)) (fun child node => child ∈ node.children) Node.ofJson?
      fun other => Node.ofGiven? kind (front ++ (form, some (plug inner other)) :: back) := by
  have field := position.readsThrough.restrict
    fun other (given : MayStand (some kind) other) => given.2.1
  have node := (readsThrough_ofGiven? dedicated forms).comp (fun other => some (plug inner other))
    fun other (_ : MayStand (some kind) other) => trivial
  refine (field.trans node).mono ?_
  rintro child _ ⟨content, within, below⟩
  exact below child within

theorem areNodes_around {front back : List Json} {value : Json}
    (others : ∀ other ∈ front ++ back, other = .null ∨ other.isNodeObject = true)
    (looks : value.isNodeObject = true) : Json.areNodes (front ++ value :: back) = true := by
  refine Json.areNodes_iff.mpr ⟨⟨value, by simp, looks⟩, fun item member => ?_⟩
  rcases List.mem_cons.mp (List.perm_middle.mem_iff.mp member) with rfl | isOther
  · exact .inr looks
  · exact others item isOther

namespace NodeStep

variable {kind : NodeKind} {inner : List Surrounding} {value : Json}

theorem readsThrough (last : NodeStep kind inner value)
    (distinct : (plug inner value).DistinctKeys) :
    ReadsThrough (MayStand (some kind)) (fun child node => child ∈ node.children) Node.ofJson?
      fun other => Node.ofJson? (plug inner other) := by
  cases last with
  | @named _ before key behind form inner _ typed field position =>
      obtain ⟨front, back, fields⟩ := List.append_of_mem field
      obtain ⟨tag, _, tagged⟩ := Option.bind_eq_some_iff.mp typed
      have forms : (NodeKind.givenBy (before ++ behind) front).map (·.1) ++ form ::
          (NodeKind.givenBy (before ++ behind) back).map (·.1) = kind.forms := by
        rw [NodeKind.forms_givenBy, NodeKind.forms_givenBy, NodeKind.forms, fields,
          List.map_append, List.map_cons]
      refine (readsThrough_position (NodeKind.dedicated_of_ofTag? tagged) forms position).congr
        (fun _ _ => rfl) fun other given => ?_
      have distinct := Json.distinctKeys_plug distinct given.1
      exact ofJson?_named (Json.distinctKeys_object_iff.mp distinct).1 typed fields
  | @listed _ tag before behind form inner _ tagged field position =>
      obtain ⟨inside, same⟩ := List.getElem?_eq_some_iff.mp field
      let front := kind.forms.take before.length
      let back := kind.forms.drop (before.length + 1)
      have split : kind.forms = front ++ form :: back := by
        rw [← same, List.cons_getElem_drop_succ, List.take_append_drop]
      have lengths : front.length = before.length := List.length_take_of_le (Nat.le_of_lt inside)
      by_cases enough : before.length + behind.length < kind.fields.length
      · let missing := kind.fields.length - (before.length + behind.length + 1)
        have forms : (front.zip (before.map some)).map (·.1) ++ form ::
            (back.zip (behind.map some ++ List.replicate missing none)).map (·.1) = kind.forms := by
          have size : back.length = kind.fields.length - (before.length + 1) := by
            rw [List.length_drop, NodeKind.forms, List.length_map]
          rw [split, List.map_fst_zip (by simp [lengths]), List.map_fst_zip]
          rw [size, List.length_append, List.length_map, List.length_replicate]
          omega
        refine (readsThrough_position (NodeKind.dedicated_of_ofTag? tagged) forms position).congr
          (fun _ _ => rfl) fun other _ => ?_
        exact (ofJson?_listed_around tagged split lengths _ behind).trans (if_pos enough)
      · -- A list that is too long is not read, whatever stands at the place.
        refine .of_none fun other _ => ?_
        exact (ofJson?_listed_around tagged split lengths _ behind).trans (if_neg enough)
  | @field _ before key behind _ typed undedicated looks =>
      have node := (readsThrough_undedicated typed undedicated).restrict
        fun other (given : MayStand (some .other) other) => Json.distinctKeys_plug distinct given.1
      have field := node.congr (fun other given =>
        (Field.ofJson?_of_isNodeObject (given.2.2 rfl)).symm) fun _ _ => rfl
      refine (field.of_map Field.node).mono ?_
      rintro child _ ⟨front, back, rfl⟩
      exact List.mem_flatMap.mpr ⟨(key, .node child), by simp, List.mem_singleton_self child⟩
  | @item _ before key behind front back _ typed undedicated others looks =>
      have position : FieldForm.items.NodeAt [.item front back] := .item
      have items := position.readsThrough.restrict
        fun other (given : MayStand (some .other) other) => given.2.1
      have node := (readsThrough_undedicated typed undedicated).comp
        (fun other => .array (front ++ other :: back))
        fun other (given : MayStand (some .other) other) => Json.distinctKeys_plug distinct given.1
      have nodes : ReadsThrough _ _ (fun other => (FieldForm.items.read? Node.ofJson?
          (some (plug [.item front back] other))).map Field.nodes) _ :=
        node.congr (fun other given => by
          rw [Field.ofJson?, if_pos (areNodes_around others (given.2.2 rfl))]
          rfl) fun _ _ => rfl
      refine (items.trans (nodes.of_map Field.nodes)).mono ?_
      rintro child _ ⟨items, within, front, back, rfl⟩
      exact List.mem_flatMap.mpr ⟨(key, .nodes items), by simp, within⟩

theorem isNodeObject_plug (last : NodeStep kind inner value)
    (distinct : (plug inner value).DistinctKeys) (other : Json) :
    (plug inner other).isNodeObject = (plug inner value).isNodeObject := by
  have object {before behind : List (String × Json)} {key : String} {tag held : Json}
      (distinct : (Json.object (before ++ (key, held) :: behind)).DistinctKeys)
      (looked : (before ++ behind).lookup "type" = some tag) (held' : Json) :
      (Json.object (before ++ (key, held') :: behind)).isNodeObject =
        (Json.object (before ++ (key, held) :: behind)).isNodeObject := by
    have another := Json.key_ne_of_lookup (Json.distinctKeys_object_iff.mp distinct).1 looked
    simp only [Json.isNodeObject, Json.get?, Json.lookup_around another]
  cases last with
  | named typed =>
      obtain ⟨tag, looked, _⟩ := Option.bind_eq_some_iff.mp typed
      exact object distinct looked _
  | listed => rfl
  | field typed | item typed => exact object distinct typed _

/-- A step down from a node of an undedicated kind leads into one of its fields, or to an item. -/
theorem undedicated (last : NodeStep .other inner value) :
    value.isNodeObject = true ∧ ∃ before key behind rest, inner = .entry before key behind :: rest ∧
      (∃ typeName, (before ++ behind).lookup "type" = some (.string typeName) ∧
        NodeKind.ofName? typeName = none) ∧
      (rest = [] ∨ ∃ front back, rest = [.item front back]) := by
  cases last with
  | named typed =>
      obtain ⟨_, _, tagged⟩ := Option.bind_eq_some_iff.mp typed
      exact absurd rfl (NodeKind.dedicated_of_ofTag? tagged)
  | listed tagged => exact absurd rfl (NodeKind.dedicated_of_ofTag? tagged)
  | field typed undedicated looks =>
      exact ⟨looks, _, _, _, _, rfl, ⟨_, typed, undedicated⟩, .inl rfl⟩
  | item typed undedicated others looks =>
      exact ⟨looks, _, _, _, _, rfl, ⟨_, typed, undedicated⟩, .inr ⟨_, _, rfl⟩⟩

theorem plug_ne_null (last : NodeStep kind inner value) (other : Json) :
    plug inner other ≠ .null := by
  cases last <;> exact Json.noConfusion

end NodeStep

namespace NodePlace

variable {place : List Surrounding} {parent : Option NodeKind} {value : Json}

theorem isNodeObject (standing : NodePlace place (some .other) value) :
    value.isNodeObject = true := by
  cases standing with
  | inside _ last => exact last.undedicated.1

theorem mayStand_plug {kind : NodeKind} {inner : List Surrounding}
    (outer : NodePlace place parent (plug inner value)) (last : NodeStep kind inner value)
    (distinct : (plug inner value).DistinctKeys) {other : Json} (given : other.DistinctKeys) :
    MayStand parent (plug inner other) := by
  refine ⟨Json.distinctKeys_plug distinct given, last.plug_ne_null other, ?_⟩
  rintro rfl
  rw [last.isNodeObject_plug distinct other]
  exact outer.isNodeObject

/-- A tree is read through any of its nodes. -/
theorem readsThrough (standing : NodePlace place parent value)
    (distinct : (plug place value).DistinctKeys) :
    ReadsThrough (MayStand parent) (fun node tree => tree.Contains node) Node.ofJson?
      fun other => Node.ofJson? (plug place other) := by
  -- From the root down: the tree is read through the node above, and that through this one.
  induction standing with
  | root => exact .refl fun node => Node.contains_self
  | @inside place parent kind inner value outer last ih =>
      rw [Json.plug_append] at distinct
      have distinctInner := Json.distinctKeys_of_plug distinct
      have within := fun other (given : MayStand (some kind) other) =>
        outer.mayStand_plug last distinctInner given.1
      have node := last.readsThrough distinctInner
      refine ((node.trans ((ih distinct).comp (plug inner) within)).mono ?_).congr
        (fun _ _ => rfl) fun other _ => by rw [Json.plug_append]
      rintro child tree ⟨between, isChild, contains⟩
      exact contains.trans (Node.contains_child isChild)

end NodePlace

/-- An item of a list with a hole in a field of an undedicated kind. -/
def itemInChunk : List Surrounding :=
  [.entry [("range", .array [.null]), ("type", .string "Chunk")] "body" [], .item [.null] []]

/-- What a statement returns that is such an item. -/
def returnedInChunk : List Surrounding :=
  itemInChunk ++ [.entry [("type", .string "ReturnStatement")] "argument" []]

theorem nodePlace_itemInChunk {value : Json} (looks : value.isNodeObject = true) :
    NodePlace itemInChunk (some .other) value :=
  .inside .root (.item rfl rfl (by simp) looks)

theorem nodePlace_returnedInChunk {value : Json} :
    NodePlace returnedInChunk (some .returnStatement) value :=
  .inside (nodePlace_itemInChunk rfl) (.named rfl List.mem_cons_self .optionalNode)

end EstreeLowering
