import EstreeLowering.Proofs.Config.Description
import EstreeLowering.Proofs.Json.Nesting
import EstreeLowering.Proofs.Json.Reading

namespace EstreeLowering.ConfigFile

open Json (Token tokensBefore itemTokensBefore entryTokensBefore)

/-- What is read holds, and the tokens behind it are left; or nothing holds, and the reading fails
by one of those faults. -/
def Decides {α : Type} (faults : List Fault) (holds : α → Prop) (rest : List Token) :
    Reading α → Prop
  | .ok (result, left) => holds result ∧ left = rest
  | .error fault => fault ∈ faults ∧ ∀ result, ¬ holds result

variable {α β : Type} {faults others : List Fault} {holds : α → Prop} {rest : List Token}
  {reading : Reading α}

theorem Decides.mono (decides : Decides faults holds rest reading)
    (subset : ∀ fault ∈ faults, fault ∈ others) : Decides others holds rest reading := by
  cases reading with
  | ok result => exact decides
  | error fault => exact ⟨subset fault decides.1, decides.2⟩

theorem Decides.congr {holds' : α → Prop} (decides : Decides faults holds rest reading)
    (same : ∀ result, holds result ↔ holds' result) : Decides faults holds' rest reading := by
  obtain rfl : holds = holds' := funext fun result => propext (same result)
  exact decides

theorem Decides.map {holds' : β → Prop} {use : α → β} (decides : Decides faults holds rest reading)
    (same : ∀ result, holds' result ↔ ∃ part, holds part ∧ use part = result) :
    Decides faults holds' rest (Json.mapRead use reading) := by
  cases reading with
  | ok result => exact ⟨(same _).mpr ⟨_, decides.1, rfl⟩, decides.2⟩
  | error fault =>
      refine ⟨decides.1, fun result held => ?_⟩
      obtain ⟨part, held, _⟩ := (same result).mp held
      exact decides.2 part held

theorem readElements_of_not_string {value : Json} (another : ∀ text, value ≠ .string text)
    (before : List String) (rest : List Token) :
    readElements before (value.tokensBefore rest) = .error .wrongShape := by
  cases value with
  | string text => exact absurd rfl (another text)
  | _ => simp only [tokensBefore, readElements, typeFault]

theorem readElements_decides (items : List Json) (nonempty : items ≠ []) (before : List String)
    (rest : List Token) :
    Decides [.wrongShape]
      (fun names => ∃ further : List String, items = further.map .string ∧
        before.reverse ++ further = names)
      rest (readElements before (itemTokensBefore items (.closeArray :: rest))) := by
  induction items generalizing before with
  | nil => exact absurd rfl nonempty
  | cons item items ih =>
      by_cases isString : ∃ text, item = .string text
      · obtain ⟨text, rfl⟩ := isString
        cases items with
        | nil =>
            refine ⟨⟨[text], rfl, ?_⟩, rfl⟩
            rw [List.reverse_cons]
        | cons second items =>
            have behind := ih (List.cons_ne_nil second items) (text :: before)
            rw [itemTokensBefore, tokensBefore, readElements]
            · refine behind.congr fun names => ?_
              constructor
              · rintro ⟨further, same, rfl⟩
                refine ⟨text :: further, by rw [List.map_cons, same], ?_⟩
                rw [List.reverse_cons, List.append_assoc, List.singleton_append]
              · rintro ⟨further, same, rfl⟩
                cases further with
                | nil => cases same
                | cons text' further =>
                    obtain ⟨⟨⟩, others⟩ := List.cons.inj same
                    refine ⟨further, others, ?_⟩
                    rw [List.reverse_cons, List.append_assoc, List.singleton_append]
            · exact List.cons_ne_nil second items
      · have another : ∀ text, item ≠ .string text := fun text same => isString ⟨text, same⟩
        have failed : readElements before (itemTokensBefore (item :: items) (.closeArray :: rest)) =
            .error .wrongShape := by
          cases items with
          | nil => exact readElements_of_not_string another before _
          | cons second items => exact readElements_of_not_string another before _
        rw [failed]
        refine ⟨List.mem_singleton_self _, ?_⟩
        rintro names ⟨further, same, _⟩
        cases further with
        | nil => cases same
        | cons text further => exact another text (List.cons.inj same).1

theorem readStrings_decides (value : Json) (rest : List Token) :
    Decides [.wrongShape] (IsNames value) rest (readStrings (value.tokensBefore rest)) := by
  cases value with
  | array items =>
      cases items with
      | nil => exact ⟨rfl, rfl⟩
      | cons item items =>
          have elements := readElements_decides (item :: items) (List.cons_ne_nil _ _) [] rest
          obtain ⟨token, behind, begins, inside⟩ :=
            Json.exists_itemTokensBefore (List.cons_ne_nil item items) (.closeArray :: rest)
          have read : readStrings ((Json.array (item :: items)).tokensBefore rest) =
              readElements [] (itemTokensBefore (item :: items) (.closeArray :: rest)) := by
            rw [tokensBefore, begins, readStrings]
            rintro rest ⟨⟩
            cases inside
          rw [read]
          refine elements.congr fun names => ?_
          simp [IsNames]
  | _ =>
      refine ⟨List.mem_singleton_self _, ?_⟩
      intro names isNames
      cases isNames

theorem readDepth_decides (value : Json) (rest : List Token) :
    Decides [.wrongShape] (IsDepth value) rest (readDepth (value.tokensBefore rest)) := by
  cases value with
  | number number =>
      cases number with
      | integer depth inRange =>
          simp only [tokensBefore, readDepth]
          split
          · rename_i small
            obtain ⟨n, rfl⟩ := Int.eq_ofNat_of_zero_le small.1
            have same : (UInt32.ofNat n).toNat = n :=
              UInt32.toNat_ofNat_of_lt' (by exact_mod_cast small.2)
            refine ⟨?_, rfl⟩
            simp only [IsDepth, Int.toNat_natCast, same]
            exact ⟨inRange, trivial⟩
          · rename_i large
            refine ⟨List.mem_singleton_self _, ?_⟩
            rintro depth' ⟨_, same⟩
            cases same
            have bound := depth'.toNat_lt
            exact large ⟨by omega, by simp [UInt32.size]; omega⟩
      | real =>
          refine ⟨List.mem_singleton_self _, ?_⟩
          rintro depth ⟨_, impossible⟩
          cases impossible
  | _ =>
      refine ⟨List.mem_singleton_self _, ?_⟩
      rintro depth ⟨_, impossible⟩
      cases impossible

theorem readValue_decides (file : ConfigFile) (key : ConfigKey) (value : Json)
    (rest : List Token) :
    Decides [.wrongShape] (Takes file key value) rest
      (file.readValue key (value.tokensBefore rest)) := by
  cases key with
  | stages =>
      by_cases missing : value = .null
      · subst missing
        exact ⟨takes_iff.mpr ⟨rfl, rfl⟩, rfl⟩
      · have read : file.readValue .stages (value.tokensBefore rest) =
            Json.mapRead (fun names => { file with stages := some names })
              (readStrings (value.tokensBefore rest)) := by
          cases value <;> first | rfl | exact absurd rfl missing
        rw [read]
        refine (readStrings_decides value rest).map fun result => ?_
        rw [takes_iff]
        constructor
        · rintro ⟨holds, same⟩
          obtain ⟨names, given, isNames⟩ := (ConfigKey.orNull_iff_of_ne missing).mp holds
          exact ⟨names, isNames, given ▸ same⟩
        · rintro ⟨names, isNames, rfl⟩
          exact ⟨isNames, rfl⟩
  | disabledRules =>
      refine (readStrings_decides value rest).map fun result => ?_
      rw [takes_iff]
      constructor
      · rintro ⟨isNames, same⟩
        exact ⟨_, isNames, same⟩
      · rintro ⟨names, isNames, rfl⟩
        exact ⟨isNames, rfl⟩
  | maxDepth =>
      by_cases missing : value = .null
      · subst missing
        exact ⟨takes_iff.mpr ⟨rfl, rfl⟩, rfl⟩
      · have read : file.readValue .maxDepth (value.tokensBefore rest) =
            Json.mapRead (fun depth => { file with maxDepth := some depth })
              (readDepth (value.tokensBefore rest)) := by
          cases value <;> first | rfl | exact absurd rfl missing
        rw [read]
        refine (readDepth_decides value rest).map fun result => ?_
        rw [takes_iff]
        constructor
        · rintro ⟨holds, same⟩
          obtain ⟨depth, given, isDepth⟩ := (ConfigKey.orNull_iff_of_ne missing).mp holds
          exact ⟨depth, isDepth, given ▸ same⟩
        · rintro ⟨depth, isDepth, rfl⟩
          exact ⟨isDepth, rfl⟩

section

variable {file middle : ConfigFile} {openKeys : List ConfigKey} {key : ConfigKey} {value : Json}
  {entries : List (String × Json)}

/-- Once the value of a key is taken, the other entries decide. -/
theorem takesEntries_iff_of_takes (isOpen : key ∈ openKeys) (nodup : openKeys.Nodup)
    (takes : Takes file key value middle) (final : ConfigFile) :
    TakesEntries middle (openKeys.erase key) entries final ↔
      TakesEntries file openKeys ((key.name, value) :: entries) final := by
  rw [takesEntries_cons isOpen nodup]
  constructor
  · exact fun takesOthers => ⟨middle, takes, takesOthers⟩
  · rintro ⟨middle', takes', takesOthers⟩
    rwa [takes.unique takes']

theorem not_takesEntries (isOpen : key ∈ openKeys) (nodup : openKeys.Nodup)
    (nothing : ∀ middle, ¬ Takes file key value middle) (final : ConfigFile) :
    ¬ TakesEntries file openKeys ((key.name, value) :: entries) final := by
  rw [takesEntries_cons isOpen nodup]
  rintro ⟨middle, takes, _⟩
  exact nothing middle takes

end

theorem readEntries_decides (entries : List (String × Json)) (nonempty : entries ≠ [])
    (file : ConfigFile) {openKeys : List ConfigKey} (nodup : openKeys.Nodup) (rest : List Token) :
    Decides [.wrongShape] (TakesEntries file openKeys entries) rest
      (file.readEntries openKeys (entryTokensBefore entries (.closeObject :: rest))) := by
  induction entries generalizing file openKeys with
  | nil => exact absurd rfl nonempty
  | cons entry entries ih =>
      obtain ⟨name, value⟩ := entry
      obtain ⟨tokens, begins, behind⟩ :=
        Json.entryTokensBefore_cons name value entries (.closeObject :: rest)
      rw [begins, readEntries]
      split
      · rename_i unknown
        refine ⟨List.mem_singleton_self _, fun final takes => ?_⟩
        obtain ⟨key, isOpen, same⟩ := takes.known name List.mem_cons_self
        have differs := List.find?_eq_none.mp unknown key isOpen
        exact differs (beq_iff_eq.mpr same)
      · rename_i key found
        have isOpen := List.mem_of_find?_eq_some found
        have named := List.find?_some found
        obtain rfl : key.name = name := beq_iff_eq.mp named
        have decides := readValue_decides file key value tokens
        simp only
        cases read : file.readValue key (value.tokensBefore tokens) with
        | error fault =>
            rw [read] at decides
            exact ⟨decides.1, not_takesEntries isOpen nodup decides.2⟩
        | ok reached =>
            obtain ⟨middle, left⟩ := reached
            rw [read] at decides
            obtain ⟨takes, rfl⟩ := decides
            have others (final : ConfigFile) :
                TakesEntries middle (openKeys.erase key) entries final ↔ _ :=
              takesEntries_iff_of_takes isOpen nodup takes final
            rcases behind with ⟨rfl, rfl⟩ | ⟨more, rfl⟩
            · exact ⟨(others middle).mp (takesEntries_nil.mpr rfl), rfl⟩
            · exact (ih more middle (nodup.erase key)).congr others

theorem readListed_decides (items : List Json) (nonempty : items ≠ []) (file : ConfigFile)
    {keys : List ConfigKey} (nodup : keys.Nodup) (rest : List Token) :
    Decides [.malformed, .wrongShape]
      (fun final => items.length ≤ keys.length ∧
        TakesEntries file keys ((keys.map ConfigKey.name).zip items) final)
      rest (file.readListed keys (itemTokensBefore items (.closeArray :: rest))) := by
  induction items generalizing file keys with
  | nil => exact absurd rfl nonempty
  | cons item items ih =>
      cases keys with
      | nil => exact ⟨by decide, fun _ takes => absurd takes.1 (by simp)⟩
      | cons key keys =>
          obtain ⟨tokens, begins, behind⟩ :=
            Json.itemTokensBefore_cons item items (.closeArray :: rest)
          have isOpen : key ∈ key :: keys := List.mem_cons_self
          have decides := readValue_decides file key item tokens
          rw [begins, readListed]
          cases read : file.readValue key (item.tokensBefore tokens) with
          | error fault =>
              rw [read] at decides
              obtain ⟨wrongShape, nothing⟩ := decides
              exact ⟨List.mem_cons_of_mem .malformed wrongShape, fun final takes =>
                not_takesEntries isOpen nodup nothing final takes.2⟩
          | ok reached =>
              obtain ⟨middle, left⟩ := reached
              rw [read] at decides
              obtain ⟨takes, rfl⟩ := decides
              have others (final : ConfigFile) :
                  (items.length ≤ keys.length ∧
                    TakesEntries middle keys ((keys.map ConfigKey.name).zip items) final) ↔
                  ((item :: items).length ≤ (key :: keys).length ∧
                    TakesEntries file (key :: keys)
                      (((key :: keys).map ConfigKey.name).zip (item :: items)) final) := by
                rw [List.map_cons, List.zip_cons_cons,
                  ← takesEntries_iff_of_takes isOpen nodup takes, List.erase_cons_head,
                  List.length_cons, List.length_cons, Nat.add_le_add_iff_right]
              rcases behind with ⟨rfl, rfl⟩ | ⟨more, rfl⟩
              · refine ⟨(others middle).mp ⟨Nat.zero_le _, ?_⟩, rfl⟩
                rw [List.zip_nil_right]
                exact takesEntries_nil.mpr rfl
              · exact (ih more middle nodup.of_cons).congr others

theorem ofTokens_object_decides (entries : List (String × Json)) :
    Decides [.wrongShape] (Describes (.object entries)) []
      (ofTokens (Json.object entries).tokens) := by
  suffices decides : Decides [.wrongShape] (TakesEntries empty ConfigKey.all entries) []
      (ofTokens (Json.object entries).tokens) from
    decides.congr fun _ => describes_object_iff.symm
  cases entries with
  | nil => exact ⟨takesEntries_nil.mpr rfl, rfl⟩
  | cons entry entries =>
      obtain ⟨key, value⟩ := entry
      obtain ⟨behind, begins, _⟩ := Json.entryTokensBefore_cons key value entries [.closeObject]
      have decides := readEntries_decides ((key, value) :: entries) (List.cons_ne_nil _ _) empty
        ConfigKey.nodup_all []
      rw [Json.tokens, tokensBefore, begins, ofTokens]
      · rwa [begins] at decides
      · rintro rest ⟨⟩

theorem ofTokens_decides (value : Json) :
    Decides [.malformed, .wrongShape] (Describes value) [] (ofTokens value.tokens) := by
  cases value with
  | object entries => exact (ofTokens_object_decides entries).mono (by simp)
  | array items =>
      suffices decides : Decides [.malformed, .wrongShape]
          (fun file => items.length ≤ ConfigKey.all.length ∧
            TakesEntries empty ConfigKey.all ((ConfigKey.all.map ConfigKey.name).zip items) file)
          [] (ofTokens (Json.array items).tokens) from
        decides.congr fun _ => describes_array_iff.symm
      cases items with
      | nil => exact ⟨⟨Nat.zero_le _, takesEntries_nil.mpr rfl⟩, rfl⟩
      | cons item items =>
          obtain ⟨token, behind, begins, inside⟩ :=
            Json.exists_itemTokensBefore (List.cons_ne_nil item items) [.closeArray]
          have decides := readListed_decides (item :: items) (List.cons_ne_nil _ _) empty
            ConfigKey.nodup_all []
          rw [Json.tokens, tokensBefore, begins, ofTokens]
          · rwa [begins] at decides
          · rintro rest ⟨⟩
            cases inside
  | null | boolean | number | string =>
      refine ⟨List.mem_cons_of_mem Fault.malformed (List.mem_singleton_self _), ?_⟩
      rintro file ⟨⟩

section

variable {value : Json} {text : String} {file : ConfigFile}

/-- All that the text consists of is read, or the text is refused. -/
theorem ofText_cases (spelled : Json.lex text = value.tokens)
    (decides : Decides faults (Describes value) [] (ofTokens value.tokens)) :
    (∃ file, ofText text = .ok file ∧ Describes value file) ∨
      ∃ fault ∈ faults, ofText text = .error fault ∧ ∀ file, ¬ Describes value file := by
  rw [ofText, spelled]
  cases read : ofTokens value.tokens with
  | ok result =>
      obtain ⟨file, left⟩ := result
      rw [read] at decides
      obtain ⟨describes, rfl⟩ := decides
      exact .inl ⟨file, rfl, describes⟩
  | error fault =>
      rw [read] at decides
      exact .inr ⟨fault, decides.1, rfl, decides.2⟩

theorem ofText_eq_ok_iff (spelled : Json.lex text = value.tokens) :
    ofText text = .ok file ↔ Describes value file := by
  rcases ofText_cases spelled (ofTokens_decides value) with
    ⟨given, read, describes⟩ | ⟨fault, _, read, nothing⟩
  · rw [read]
    constructor
    · rintro ⟨⟩
      exact describes
    · exact fun describes' => by rw [describes.unique describes']
  · rw [read]
    exact ⟨nofun, fun describes => absurd describes (nothing file)⟩

end

/-- Not even what is reported of a wrong file depends on the order of its entries. -/
theorem ofText_perm {entries entries' : List (String × Json)} {text text' : String}
    (perm : entries.Perm entries') (spelled : Json.lex text = (Json.object entries).tokens)
    (spelled' : Json.lex text' = (Json.object entries').tokens) : ofText text = ofText text' := by
  rcases ofText_cases spelled (ofTokens_object_decides entries) with
    ⟨file, read, describes⟩ | ⟨fault, wrongShape, read, nothing⟩
  · rw [read]
    exact ((ofText_eq_ok_iff spelled').mpr (describes.perm perm)).symm
  · rcases ofText_cases spelled' (ofTokens_object_decides entries') with
      ⟨file, _, describes⟩ | ⟨fault', wrongShape', read', _⟩
    · exact absurd (describes.perm perm.symm) (nothing file)
    · rw [read, read', List.mem_singleton.mp wrongShape, List.mem_singleton.mp wrongShape']

theorem lex_render_alone (layout : Json.Layout) (value : Json) :
    Json.lex (value.render layout) = value.tokens := by
  have spelled : Json.lex (value.render layout ++ "") = value.tokens :=
    Json.lex_render layout value (by simp)
  rwa [String.append_empty] at spelled

/-- A text is read as the file that its value describes and as no other, whatever the order of the
entries, and a file that is written is read back. -/
theorem ofText_exact :
    (∀ value text, Json.lex text = value.tokens →
        ∀ file, ofText text = .ok file ↔ Describes value file) ∧
      (∀ (entries entries' : List (String × Json)) text text', entries.Perm entries' →
        Json.lex text = (Json.object entries).tokens →
          Json.lex text' = (Json.object entries').tokens → ofText text = ofText text') ∧
      ∀ (file : ConfigFile) layout, ofText (file.toJson.render layout) = .ok file := by
  refine ⟨fun value text spelled file => ofText_eq_ok_iff spelled,
    fun entries entries' text text' => ofText_perm, fun file layout => ?_⟩
  exact (ofText_eq_ok_iff (lex_render_alone layout file.toJson)).mpr (describes_toJson file)

/-- Two entries in both orders, and a third one with an unknown key. -/
theorem ofText_exact_entries :
    let depth := Json.number (.integer 7 (by decide))
    let entries := [("maxDepth", depth), ("disabledTransformers", .array [.string "x"])]
    let text := (Json.object entries).render .compact
    ofText text = .ok ⟨none, ["x"], some 7⟩ ∧
      ofText ((Json.object entries.reverse).render .pretty) = ofText text ∧
      ∀ file, ofText ((Json.object (("depth", depth) :: entries)).render .compact) ≠ .ok file := by
  intro depth entries text
  obtain ⟨reads, permuted, _⟩ := ofText_exact
  have describes : Describes (.object entries) ⟨none, ["x"], some 7⟩ := by
    refine .object (by decide) ?_ fun key => ?_
    · exact List.forall_mem_cons.mpr ⟨⟨.maxDepth, rfl⟩,
        List.forall_mem_cons.mpr ⟨⟨.disabledRules, rfl⟩, nofun⟩⟩
    · cases key with
      | stages => exact rfl
      | disabledRules => exact rfl
      | maxDepth => exact ⟨_, rfl⟩
  refine ⟨(reads _ _ (lex_render_alone _ _) _).mpr describes, ?_, ?_⟩
  · exact permuted _ _ _ _ (List.reverse_perm entries) (lex_render_alone _ _)
      (lex_render_alone _ _)
  · intro file read
    cases (reads _ _ (lex_render_alone _ _) file).mp read with
    | object _ known =>
        obtain ⟨key, same⟩ := known "depth" List.mem_cons_self
        cases key <;> simp [ConfigKey.name] at same

end EstreeLowering.ConfigFile
