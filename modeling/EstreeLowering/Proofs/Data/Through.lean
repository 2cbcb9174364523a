import EstreeLowering.Proofs.Data.Traversal

namespace EstreeLowering

variable {α β γ δ : Type} {domain : α → Prop} {holds : β → γ → Prop}
variable {part : α → Option β} {whole : α → Option γ}

/-- What is read of the whole holds what is read of the part, for parts of the domain. -/
def ReadsThrough (domain : α → Prop) (holds : β → γ → Prop) (part : α → Option β)
    (whole : α → Option γ) : Prop :=
  ∃ around : Option (β → γ), (∀ wrap ∈ around, ∀ result, holds result (wrap result)) ∧
    ∀ value, domain value → whole value = around.bind fun wrap => (part value).map wrap

namespace ReadsThrough

theorem refl {holds : β → β → Prop} (same : ∀ result, holds result result) :
    ReadsThrough domain holds part part := by
  refine ⟨some id, ?_, fun value _ => ?_⟩
  · intro wrap isWrap
    cases isWrap
    exact same
  · rw [Option.bind_some, Option.map_id, id]

theorem of_none (rejected : ∀ value, domain value → whole value = none) :
    ReadsThrough domain holds part whole :=
  ⟨none, fun _ impossible => (nomatch impossible), rejected⟩

theorem mono {holds' : β → γ → Prop} (through : ReadsThrough domain holds part whole)
    (weaker : ∀ result results, holds result results → holds' result results) :
    ReadsThrough domain holds' part whole := by
  obtain ⟨around, held, same⟩ := through
  exact ⟨around, fun wrap isWrap result => weaker _ _ (held wrap isWrap result), same⟩

theorem restrict {domain' : α → Prop} (through : ReadsThrough domain holds part whole)
    (within : ∀ value, domain' value → domain value) : ReadsThrough domain' holds part whole := by
  obtain ⟨around, held, same⟩ := through
  exact ⟨around, held, fun value given => same value (within value given)⟩

theorem comp {ε : Type} (through : ReadsThrough domain holds part whole) (place : ε → α)
    {domain' : ε → Prop} (within : ∀ value, domain' value → domain (place value)) :
    ReadsThrough domain' holds (fun value => part (place value)) fun value =>
      whole (place value) := by
  obtain ⟨around, held, same⟩ := through
  exact ⟨around, held, fun value given => same (place value) (within value given)⟩

theorem congr {part' : α → Option β} {whole' : α → Option γ}
    (through : ReadsThrough domain holds part whole)
    (samePart : ∀ value, domain value → part' value = part value)
    (sameWhole : ∀ value, domain value → whole' value = whole value) :
    ReadsThrough domain holds part' whole' := by
  obtain ⟨around, held, same⟩ := through
  refine ⟨around, held, fun value given => ?_⟩
  rw [samePart value given, sameWhole value given]
  exact same value given

theorem trans {holds' : γ → δ → Prop} {tree : α → Option δ}
    (inner : ReadsThrough domain holds part whole) (outer : ReadsThrough domain holds' whole tree) :
    ReadsThrough domain (fun result results => ∃ between, holds result between ∧
      holds' between results) part tree := by
  obtain ⟨around, held, same⟩ := inner
  obtain ⟨around', held', same'⟩ := outer
  refine ⟨around'.bind fun wrap' => around.map fun wrap => wrap' ∘ wrap, ?_, ?_⟩
  · intro both isBoth result
    obtain ⟨wrap', isWrap', isBoth⟩ := Option.bind_eq_some_iff.mp isBoth
    obtain ⟨wrap, isWrap, rfl⟩ := Option.map_eq_some_iff.mp isBoth
    exact ⟨wrap result, held wrap isWrap result, held' wrap' isWrap' (wrap result)⟩
  · intro value given
    rw [same' value given, same value given]
    cases around' <;> cases around <;> simp

/-- What is read of the whole may be put to a use that does not fail. -/
theorem bind {holds' : β → δ → Prop} (through : ReadsThrough domain holds part whole)
    (use : γ → Option δ) (total : ∀ result results, holds result results →
      ∃ used, use results = some used ∧ holds' result used) :
    ReadsThrough domain holds' part fun value => (whole value).bind use := by
  obtain ⟨around, held, same⟩ := through
  cases around with
  | none => exact of_none fun value given => by simp only [same value given, Option.bind_none]
  | some wrap =>
      choose used isUsed held' using fun result =>
        total result (wrap result) (held wrap rfl result)
      refine ⟨some used, ?_, fun value given => ?_⟩
      · intro wrap' isWrap'
        cases isWrap'
        exact held'
      · simp only [same value given, Option.bind_some]
        cases part value with
        | none => rfl
        | some result => exact isUsed result

/-- What is read of the part may be only what that is made from. -/
theorem of_map {source : α → Option δ} (make : δ → β)
    (through : ReadsThrough domain holds (fun value => (source value).map make) whole) :
    ReadsThrough domain (fun result results => holds (make result) results) source whole := by
  obtain ⟨around, held, same⟩ := through
  refine ⟨around.map (· ∘ make), ?_, fun value given => ?_⟩
  · intro made isMade result
    obtain ⟨wrap, isWrap, rfl⟩ := Option.map_eq_some_iff.mp isMade
    exact held wrap isWrap (make result)
  · rw [same value given]
    cases around <;> simp

variable (through : ReadsThrough domain holds part whole) {value other : α}

include through

theorem eq_of_eq (given : domain value) (given' : domain other) (alike : part value = part other) :
    whole value = whole other := by
  obtain ⟨around, _, same⟩ := through
  rw [same value given, same other given', alike]

theorem eq_none (given : domain value) (rejected : part value = none) : whole value = none := by
  obtain ⟨around, _, same⟩ := through
  rw [same value given, rejected]
  exact Option.bind_fun_none around

end ReadsThrough

theorem readsThrough_mapM (reader : α → Option β) (front back : List α) :
    ReadsThrough (fun _ => True)
      (fun result results => ∃ before behind, front.mapM reader = some before ∧
        back.mapM reader = some behind ∧ results = before ++ result :: behind)
      reader fun item => (front ++ item :: back).mapM reader := by
  refine ⟨(front.mapM reader).bind fun before => (back.mapM reader).map fun behind result =>
    before ++ result :: behind, ?_, fun item _ => ?_⟩
  · intro wrap isWrap result
    obtain ⟨before, frontRead, isWrap⟩ := Option.bind_eq_some_iff.mp isWrap
    obtain ⟨behind, backRead, rfl⟩ := Option.map_eq_some_iff.mp isWrap
    exact ⟨before, behind, frontRead, backRead, rfl⟩
  · simp only [List.mapM_append, List.mapM_cons]
    cases front.mapM reader <;> cases back.mapM reader <;> cases reader item <;> simp

end EstreeLowering
