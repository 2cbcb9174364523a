import EstreeLowering.Proofs.Node.Place

namespace EstreeLowering

open Json (Surrounding plug)

namespace NodeKind

def declares (kind : NodeKind) (entry : String × Json) : Bool :=
  entry.1 == "type" || kind.fieldNames.contains entry.1

/-- The place of the kind in the list of the dedicated ones. -/
def IsIndex (kind : NodeKind) (tag : Json) : Prop :=
  ∃ (index : Nat) (inRange : _), tag = .number (.integer index inRange) ∧
    dedicated[index]? = some kind

end NodeKind

/-- In a list the item stands for what an object gives for a field of that form. -/
inductive FieldForm.Lists : FieldForm → Option Json → Json → Prop
  | given {form value} : Lists form (some value) value
  | absent {form} (optional : form ∈ [.optionalNode, .optionalText, .regex]) : Lists form none .null
  | off : Lists .optionalFlag none (.boolean false)

/-- Another spelling of an object whose `type` names that kind: the index of the kind instead of its
name, or the list of the `type` and the fields, from which absent ones at the end may be missing. -/
inductive NodeKind.Spells (kind : NodeKind) (entries : List (String × Json)) : Json → Prop
  | indexed {before behind tag} (same : entries = before ++ ("type", .string kind.name) :: behind)
      (index : kind.IsIndex tag) : Spells kind entries (.object (before ++ ("type", tag) :: behind))
  | listed {tag front back items} (tagged : tag = .string kind.name ∨ kind.IsIndex tag)
      (fields : kind.fields = front ++ back)
      (lists : List.Forall₂ (fun field item => field.2.Lists (entries.lookup field.1) item)
        front items)
      (missing : ∀ field ∈ back, entries.lookup field.1 = none) :
      Spells kind entries (.array (tag :: items))

variable {kind : NodeKind} {entries : List (String × Json)} {spelled : Json}

theorem NodeKind.IsIndex.ofTag? {tag : Json} (index : kind.IsIndex tag) :
    NodeKind.ofTag? tag = some kind := by
  obtain ⟨index, _, rfl, found⟩ := index
  exact ofTag?_index.trans found

theorem FieldForm.Lists.read?_eq {form : FieldForm} {given : Option Json} {item : Json}
    (lists : form.Lists given item) (read : Json → Option Node) :
    form.read? read (some item) = form.read? read given := by
  cases lists with
  | given => rfl
  | absent optional =>
      simp only [List.mem_cons, List.not_mem_nil, or_false] at optional
      rcases optional with rfl | rfl | rfl <;> rfl
  | off => rfl

theorem FieldForm.Lists.distinctKeys {form : FieldForm} {given : Option Json} {item : Json}
    (lists : form.Lists given item) (within : ∀ value ∈ given, value.DistinctKeys) :
    item.DistinctKeys := by
  cases lists with
  | given => exact within item rfl
  | absent => exact .null
  | off => exact .boolean

theorem ofJson?_of_perm {entries' : List (String × Json)} (dedicated : kind ≠ .other)
    (distinct : (Json.object entries).DistinctKeys) (typed : ("type", .string kind.name) ∈ entries)
    (distinct' : (Json.object entries').DistinctKeys)
    (typed' : ("type", .string kind.name) ∈ entries')
    (same : (entries'.filter kind.declares).Perm (entries.filter kind.declares)) :
    Node.ofJson? (.object entries') = Node.ofJson? (.object entries) := by
  rw [ofJson?_of_name dedicated distinct typed, ofJson?_of_name dedicated distinct' typed']
  refine congrArg (Node.ofGiven? kind) (List.map_congr_left fun field member => ?_)
  have declared : field.1 ∈ kind.fieldNames := by
    rw [← kind.names_fields]
    exact List.mem_map_of_mem member
  have nodup := (Json.distinctKeys_object_iff.mp distinct).1
  have nodup' := (Json.distinctKeys_object_iff.mp distinct').1
  have looked : entries'.lookup field.1 = entries.lookup field.1 := by
    refine Option.ext fun value => ?_
    have member : (field.1, value) ∈ _ ↔ (field.1, value) ∈ _ := same.mem_iff
    simp only [List.mem_filter, NodeKind.declares, List.contains_iff_mem.mpr declared,
      Bool.or_true, and_true] at member
    rw [Json.lookup_eq_some_iff nodup, Json.lookup_eq_some_iff nodup', member]
  rw [looked]

theorem mapM_of_lists {front : List (String × FieldForm)} {items : List Json}
    (lists : List.Forall₂ (fun field item => field.2.Lists (entries.lookup field.1) item)
      front items) (read : Json → Option Node) :
    ((front.map (·.2)).zip (items.map some)).mapM (FieldPart.read? read) =
      (NodeKind.givenBy entries front).mapM (FieldPart.read? read) := by
  induction lists with
  | nil => rfl
  | @cons field item front items first _ ih =>
      have same : FieldPart.read? read (field.2, some item) =
          FieldPart.read? read (field.2, entries.lookup field.1) :=
        congrArg (Option.map _) (first.read?_eq read)
      rw [NodeKind.givenBy] at ih ⊢
      rw [List.map_cons, List.map_cons, List.map_cons, List.zip_cons_cons, List.mapM_cons,
        List.mapM_cons, same, ih]

theorem givenBy_of_missing {back : List (String × FieldForm)}
    (missing : ∀ field ∈ back, entries.lookup field.1 = none) :
    NodeKind.givenBy entries back = (back.map (·.2)).zip (List.replicate back.length none) := by
  induction back with
  | nil => rfl
  | cons field back ih =>
      obtain ⟨first, others⟩ := List.forall_mem_cons.mp missing
      have rest := ih others
      rw [NodeKind.givenBy] at rest ⊢
      rw [List.map_cons, rest, first]
      rfl

theorem ofJson?_of_spells (dedicated : kind ≠ .other)
    (distinct : (Json.object entries).DistinctKeys) (typed : ("type", .string kind.name) ∈ entries)
    (spells : kind.Spells entries spelled) :
    Node.ofJson? spelled = Node.ofJson? (.object entries) := by
  rw [ofJson?_of_name dedicated distinct typed]
  cases spells with
  | @indexed before behind tag same index =>
      subst same
      have nodup : ((before ++ ("type", tag) :: behind).map (·.1)).Nodup := by
        simpa using (Json.distinctKeys_object_iff.mp distinct).1
      have found : (before ++ ("type", tag) :: behind).lookup "type" = some tag :=
        Json.lookup_of_mem nodup (by simp)
      rw [ofJson?_dedicated nodup (by rw [found]; exact index.ofTag?)]
      refine congrArg (Node.ofGiven? kind) (List.map_congr_left fun field member => ?_)
      have another : field.1 ≠ "type" := by
        rintro same
        apply kind.type_not_mem_fieldNames
        rw [← kind.names_fields, ← same]
        exact List.mem_map_of_mem member
      rw [Json.lookup_around another, Json.lookup_around another]
  | @listed tag front back items tagged fields lists missing =>
      have isTag : NodeKind.ofTag? tag = some kind := by
        rcases tagged with rfl | index
        · exact NodeKind.ofTag?_name dedicated
        · exact index.ofTag?
      have size := lists.length_eq
      have count : kind.fields.length - items.length = back.length := by
        rw [fields, List.length_append]
        omega
      have enough : items.length ≤ kind.fields.length := by
        rw [fields, List.length_append]
        omega
      have split : kind.listed items = (front.map (·.2)).zip (items.map some) ++
          NodeKind.givenBy entries back := by
        rw [NodeKind.listed, count, NodeKind.forms, fields, List.map_append,
          List.zip_append (by simpa using size), givenBy_of_missing missing]
      have given : NodeKind.givenBy entries kind.fields =
          NodeKind.givenBy entries front ++ NodeKind.givenBy entries back := by
        rw [fields, NodeKind.givenBy, List.map_append]
        rfl
      rw [ofJson?_listed isTag, if_pos enough, Node.ofGiven?, Node.ofGiven?, split, given,
        List.mapM_append, List.mapM_append, mapM_of_lists lists]

theorem NodeKind.Spells.distinctKeys (distinct : (Json.object entries).DistinctKeys)
    (spells : kind.Spells entries spelled) : spelled.DistinctKeys := by
  have tag {value : Json} (index : kind.IsIndex value) : value.DistinctKeys := by
    obtain ⟨_, _, rfl, _⟩ := index
    exact .number
  cases spells with
  | @indexed before behind value same index =>
      subst same
      have outer : (plug [.entry before "type" behind] (.string kind.name)).DistinctKeys := distinct
      exact Json.distinctKeys_plug outer (tag index)
  | @listed value front back items tagged fields lists missing =>
      have within := (Json.distinctKeys_object_iff.mp distinct).2
      refine .array (List.forall_mem_cons.mpr ⟨?_, ?_⟩)
      · rcases tagged with rfl | index
        · exact .string
        · exact tag index
      · clear fields missing
        induction lists with
        | nil => exact fun _ none => nomatch none
        | cons first _ ih =>
            refine List.forall_mem_cons.mpr ⟨first.distinctKeys fun value looked => ?_, ih⟩
            exact within _ (Json.mem_of_lookup looked)

theorem NodeKind.Spells.isNodeObject_eq_false (distinct : (Json.object entries).DistinctKeys)
    (spells : kind.Spells entries spelled) : spelled.isNodeObject = false := by
  have itself := spells.distinctKeys distinct
  cases spells with
  | @indexed before behind tag _ index =>
      have found : (before ++ ("type", tag) :: behind).lookup "type" = some tag :=
        Json.lookup_of_mem (Json.distinctKeys_object_iff.mp itself).1 (by simp)
      obtain ⟨_, _, rfl, _⟩ := index
      simp only [Json.isNodeObject, Json.get?, found]
  | listed => rfl

theorem areNodes_eq_false {items : List Json} {item : Json} (member : item ∈ items)
    (given : item ≠ .null) (looks : item.isNodeObject = false) : Json.areNodes items = false := by
  rw [Bool.eq_false_iff]
  intro areNodes
  rcases (Json.areNodes_iff.mp areNodes).2 item member with absent | nodeObject
  · exact given absent
  · rw [looks] at nodeObject
    cases nodeObject

theorem NodeKind.Spells.ne_null (spells : kind.Spells entries spelled) : spelled ≠ .null := by
  cases spells <;> exact Json.noConfusion

theorem NodeKind.Spells.ofJson?_field (distinct : (Json.object entries).DistinctKeys)
    (spells : kind.Spells entries spelled) (read : Json → Option Node) :
    Field.ofJson? read spelled = some (.value spelled) := by
  have looks := spells.isNodeObject_eq_false distinct
  cases spells with
  | indexed => simp only [Field.ofJson?, looks, Bool.false_eq_true, if_false]
  | @listed tag _ _ items tagged =>
      have raw : Json.areNodes (tag :: items) = false := by
        rcases tagged with rfl | ⟨_, _, rfl, _⟩
        · exact areNodes_eq_false List.mem_cons_self Json.noConfusion rfl
        · exact areNodes_eq_false List.mem_cons_self Json.noConfusion rfl
      simp only [Field.ofJson?, raw, Bool.false_eq_true, if_false]

theorem NodeKind.Spells.ofJson?_item (distinct : (Json.object entries).DistinctKeys)
    (spells : kind.Spells entries spelled) (read : Json → Option Node) (front back : List Json) :
    Field.ofJson? read (.array (front ++ spelled :: back)) =
      some (.value (.array (front ++ spelled :: back))) := by
  have raw : Json.areNodes (front ++ spelled :: back) = false :=
    areNodes_eq_false (by simp) spells.ne_null (spells.isNodeObject_eq_false distinct)
  rw [Field.ofJson?, raw]
  rfl

theorem readsThrough_field {place inner : List Surrounding} {parent : Option NodeKind}
    {before behind : List (String × Json)} {key : String} {value : Json}
    (outer : NodePlace place parent (plug (.entry before key behind :: inner) value))
    (last : NodeStep .other (.entry before key behind :: inner) value)
    (distinct : (plug (place ++ .entry before key behind :: inner) value).DistinctKeys) :
    ReadsThrough Json.DistinctKeys
      (fun field tree => ∃ typeName front back,
        tree.Contains (.other typeName (front ++ (key, field) :: back)))
      (fun other => Field.ofJson? Node.ofJson? (plug inner other))
      fun other => Node.ofJson? (plug (place ++ .entry before key behind :: inner) other) := by
  rw [Json.plug_append] at distinct
  have distinctHere := Json.distinctKeys_of_plug distinct
  obtain ⟨_, _, _, _, _, same, ⟨typeName, typed, undedicated⟩, _⟩ := last.undedicated
  cases same
  have node := (readsThrough_undedicated typed undedicated).comp (plug inner)
    fun other (given : other.DistinctKeys) => Json.distinctKeys_plug distinctHere given
  have within := fun other (given : Json.DistinctKeys other) =>
    outer.mayStand_plug last distinctHere given
  refine ((node.trans ((outer.readsThrough distinct).comp _ within)).mono ?_).congr
    (fun _ _ => rfl) fun other _ => by rw [Json.plug_append]; rfl
  rintro field tree ⟨_, ⟨front, back, rfl⟩, contains⟩
  exact ⟨typeName, front, back, contains⟩

/-- The spelling is kept as raw JSON in the field at that place, where the object is a node: the
tree is read through that field, and the field holds what stands there as it is. -/
def KeptRaw (place : List Surrounding) (object spelled : Json) : Prop :=
  ∃ outer before key behind inner, place = outer ++ .entry before key behind :: inner ∧
    NodeStep .other (.entry before key behind :: inner) object ∧
    ∃ around : Option (Field → Node),
      (∀ tree ∈ around, ∀ field, ∃ typeName front back,
        (tree field).Contains (.other typeName (front ++ (key, field) :: back))) ∧
      Node.ofJson? (plug place object) =
        around.bind (fun tree => (Field.ofJson? Node.ofJson? (plug inner object)).map tree) ∧
      Node.ofJson? (plug place spelled) = around.map fun tree => tree (.value (plug inner spelled))

section

variable {place : List Surrounding} {parent : Option NodeKind}

theorem keptRaw_of_raw {before behind : List (String × Json)} {key : String}
    {inner : List Surrounding} {object : Json}
    (standing : NodePlace place parent (plug (.entry before key behind :: inner) object))
    (last : NodeStep .other (.entry before key behind :: inner) object)
    (distinct : (plug (place ++ .entry before key behind :: inner) object).DistinctKeys)
    (spelledDistinct : spelled.DistinctKeys)
    (raw : Field.ofJson? Node.ofJson? (plug inner spelled) = some (.value (plug inner spelled))) :
    KeptRaw (place ++ .entry before key behind :: inner) object spelled := by
  obtain ⟨around, holds, same⟩ := readsThrough_field standing last distinct
  have here := same object (Json.distinctKeys_of_plug distinct)
  refine ⟨place, before, key, behind, inner, rfl, last, around, holds, here, ?_⟩
  refine (same spelled spelledDistinct).trans ?_
  simp only [raw]
  cases around <;> rfl

theorem keptRaw (standing : NodePlace place (some .other) (.object entries))
    (distinct : (plug place (.object entries)).DistinctKeys)
    (spells : kind.Spells entries spelled) :
    KeptRaw place (.object entries) spelled := by
  have distinctHere := Json.distinctKeys_of_plug distinct
  have spelledDistinct := spells.distinctKeys distinctHere
  cases standing with
  | inside standing last =>
      obtain ⟨_, _, _, _, _, rfl, _, rfl | ⟨front, back, rfl⟩⟩ := last.undedicated
      · exact keptRaw_of_raw standing last distinct spelledDistinct
          (spells.ofJson?_field distinctHere _)
      · exact keptRaw_of_raw standing last distinct spelledDistinct
          (spells.ofJson?_item distinctHere _ front back)

/-- Other orders of the keys and other keys that mean nothing change nothing about the tree that is
read, or about its being refused. Neither does another spelling, unless the object is a field or an
item of an undedicated kind: there the spelling is raw JSON. -/
theorem ofJson?_spelling (dedicated : kind ∈ NodeKind.dedicated)
    (standing : NodePlace place parent (.object entries))
    (distinct : (plug place (.object entries)).DistinctKeys)
    (typed : ("type", .string kind.name) ∈ entries) :
    (∀ entries', (Json.object entries').DistinctKeys →
      (entries'.filter kind.declares).Perm (entries.filter kind.declares) →
        Node.ofJson? (plug place (.object entries')) =
          Node.ofJson? (plug place (.object entries))) ∧
      ∀ spelled, kind.Spells entries spelled →
        (parent ≠ some .other →
          Node.ofJson? (plug place spelled) = Node.ofJson? (plug place (.object entries))) ∧
        (parent = some .other → KeptRaw place (.object entries) spelled) := by
  rw [NodeKind.mem_dedicated] at dedicated
  have distinctHere := Json.distinctKeys_of_plug distinct
  have mayStand : MayStand parent (.object entries) := by
    refine ⟨distinctHere, Json.noConfusion, ?_⟩
    rintro rfl
    exact standing.isNodeObject
  have through := standing.readsThrough distinct
  constructor
  · intro entries' distinct' same
    have typed' : ("type", .string kind.name) ∈ entries' := by
      have declared : ("type", .string kind.name) ∈ entries.filter kind.declares :=
        List.mem_filter.mpr ⟨typed, rfl⟩
      exact List.mem_of_mem_filter (same.mem_iff.mpr declared)
    have found := Json.lookup_of_mem (Json.distinctKeys_object_iff.mp distinct').1 typed'
    have mayStand' : MayStand parent (.object entries') :=
      ⟨distinct', Json.noConfusion, fun _ => Json.isNodeObject_of_lookup found⟩
    exact through.eq_of_eq mayStand' mayStand
      (ofJson?_of_perm dedicated distinctHere typed distinct' typed' same)
  · intro spelled spells
    refine ⟨fun another => ?_, ?_⟩
    · have mayStand' : MayStand parent spelled :=
        ⟨spells.distinctKeys distinctHere, spells.ne_null, fun same => absurd same another⟩
      exact through.eq_of_eq mayStand' mayStand
        (ofJson?_of_spells dedicated distinctHere typed spells)
    · rintro rfl
      exact keptRaw standing distinct spells

end

/-- A call whose keys are shuffled among others, and one with an index and one as a list. -/
theorem ofJson?_spelling_call :
    let callee : Json := .object [("type", .string "Identifier"), ("name", .string "f")]
    let type : String × Json := ("type", .string "CallExpression")
    let call := [type, ("callee", callee), ("arguments", .array [])]
    let shuffled := [("loc", .object [type]), ("arguments", .array []), type, ("callee", callee)]
    let indexed : Json := .object
      [("type", .number (.integer 14 (by decide))), ("callee", callee), ("arguments", .array [])]
    let listed : Json := .array [.string "CallExpression", callee, .array []]
    let tree (call : Node) : Node := .other "Chunk"
      [("range", .value (.array [.null])), ("body", .nodes [none, some (.returnStatement call)])]
    let node := tree (.call (.identifier "f") [] false)
    (plug returnedInChunk (.object call)).DistinctKeys ∧
      Node.ofJson? (plug returnedInChunk (.object call)) = some node ∧
      Node.ofJson? (plug returnedInChunk (.object shuffled)) = some node ∧
      Node.ofJson? (plug returnedInChunk indexed) = some node ∧
      Node.ofJson? (plug returnedInChunk listed) = some node ∧
      KeptRaw itemInChunk (.object call) listed := by
  intro callee type call shuffled indexed listed tree node
  have distinct : (plug returnedInChunk (.object call)).DistinctKeys :=
    Json.distinctKeys_iff_merged.mpr rfl
  have distinctItem : (plug itemInChunk (.object call)).DistinctKeys :=
    Json.distinctKeys_iff_merged.mpr rfl
  have read : Node.ofJson? (plug returnedInChunk (.object call)) = some node := rfl
  have dedicated : NodeKind.call ∈ NodeKind.dedicated := by decide
  have same : (shuffled.filter NodeKind.call.declares).Perm
      (call.filter NodeKind.call.declares) := by
    have declared : shuffled.filter NodeKind.call.declares =
        [("arguments", .array [])] ++ [type, ("callee", callee)] := by
      simp [shuffled, type, NodeKind.declares, NodeKind.fieldNames]
    rw [declared]
    exact List.perm_append_comm
  have spellsIndexed : NodeKind.call.Spells call indexed := by
    have index : NodeKind.call.IsIndex (.number (.integer 14 (by decide))) := ⟨14, _, rfl, rfl⟩
    exact .indexed (show call = [] ++ type :: call.tail from rfl) index
  have spellsListed : NodeKind.call.Spells call listed := by
    have fields : NodeKind.call.fields =
        [("callee", .node), ("arguments", .nodes)] ++ [("optional", .optionalFlag)] := rfl
    refine .listed (.inl rfl) fields (.cons .given (.cons .given .nil)) ?_
    exact List.forall_mem_singleton.mpr rfl
  obtain ⟨shuffling, spelling⟩ := ofJson?_spelling dedicated nodePlace_returnedInChunk distinct
    List.mem_cons_self
  obtain ⟨_, spellingItem⟩ := ofJson?_spelling dedicated (nodePlace_itemInChunk rfl) distinctItem
    List.mem_cons_self
  have shuffledRead := shuffling shuffled (Json.distinctKeys_iff_merged.mpr rfl) same
  have indexedRead := (spelling indexed spellsIndexed).1 (by decide)
  have listedRead := (spelling listed spellsListed).1 (by decide)
  exact ⟨distinct, read, shuffledRead.trans read, indexedRead.trans read, listedRead.trans read,
    (spellingItem listed spellsListed).2 rfl⟩

end EstreeLowering
