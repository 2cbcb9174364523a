import EstreeLowering.Walk.Schedule
import Mathlib.Data.List.Basic
import Mathlib.Data.List.Induction

namespace EstreeLowering

theorem Rule.mem_activeStages {rule : Rule} {stage : Stage} :
    stage ∈ rule.activeStages ↔ ∃ hooks, rule.hooks? stage = some hooks := by
  rw [activeStages, List.mem_filter, Option.isSome_iff_exists]
  exact and_iff_right stage.mem_all

namespace Schedule

/-- The answers of a schedule about a stage are those that the rules of the list give: the visitors
are what these rules contribute, each rule once and where it first occurs, and a rule is found, or
the stage active, if there is such a visitor. -/
structure Answers (schedule : Schedule) (rules : List Rule) (stage : Stage) : Prop where
  listed : ∀ visitor, visitor ∈ schedule.visitors stage ↔
    visitor.rule ∈ rules ∧ visitor.rule.hooks? stage = some visitor.hooks
  once : ((schedule.visitors stage).map Visitor.rule).Nodup
  inOrder : (schedule.visitors stage).Pairwise fun visitor other =>
    rules.idxOf visitor.rule < rules.idxOf other.rule
  lookedUp : ∀ rule hooks, schedule.lookup? rule stage = some hooks ↔
    rule ∈ rules ∧ rule.hooks? stage = some hooks
  active : schedule.isActive stage = true ↔ ∃ rule ∈ rules, stage ∈ rule.activeStages

variable {rules more : List Rule} {rule : Rule} {stage : Stage} {visitor : Visitor}

theorem ofRules_concat (rules : List Rule) (rule : Rule) :
    ofRules (rules ++ [rule]) = (ofRules rules).register rule := by
  rw [ofRules, List.foldl_append, List.foldl_cons, List.foldl_nil, ofRules]

/-- The loop over the rules leaves out the repeated ones. -/
theorem rules_ofRules (rules : List Rule) : (ofRules rules).rules = rules.eraseDups := by
  -- Rules are registered in their order, so the induction is on the list from its end.
  induction rules using List.reverseRecOn with
  | nil => rfl
  | append_singleton rules rule ih =>
      rw [ofRules_concat, register, List.eraseDups_append]
      split
      · rename_i known
        rw [ih, List.mem_eraseDups] at known
        simp [List.removeAll, known, ih]
      · rename_i new
        rw [ih, List.mem_eraseDups] at new
        simp [List.removeAll, List.eraseDups_cons, new, ih]

theorem mem_rules_ofRules : rule ∈ (ofRules rules).rules ↔ rule ∈ rules := by
  rw [rules_ofRules, List.mem_eraseDups]

theorem nodup_eraseDups (rules : List Rule) : rules.eraseDups.Nodup :=
  rules_ofRules rules ▸ (ofRules rules).nodup

/-- What the loop puts into the table of a stage are the rules that take part in it. -/
theorem visitors_ofRules (rules : List Rule) (stage : Stage) :
    (ofRules rules).visitors stage = rules.eraseDups.filterMap (Visitor.of? stage) := by
  rw [visitors, filled, rules_ofRules]

theorem ofRules_append (known : ∀ rule ∈ more, rule ∈ rules) :
    ofRules (rules ++ more) = ofRules rules := by
  rw [ofRules, List.foldl_append, ← ofRules]
  induction more with
  | nil => rfl
  | cons rule more ih =>
      obtain ⟨here, others⟩ := List.forall_mem_cons.mp known
      rw [List.foldl_cons, register, dif_pos (mem_rules_ofRules.mpr here), ih others]

theorem visitors_ofRules_append (new : rule ∉ rules) (stage : Stage) :
    (ofRules (rules ++ [rule])).visitors stage =
      (ofRules rules).visitors stage ++ (Visitor.of? stage rule).toList := by
  rw [ofRules_concat, register, dif_neg (mt mem_rules_ofRules.mp new), visitors,
    VisitorTable.visitors_foldl_push rule Stage.nodup_all, if_pos stage.mem_all, visitors]

theorem mem_visitors_ofRules :
    visitor ∈ (ofRules rules).visitors stage ↔
      visitor.rule ∈ rules ∧ visitor.rule.hooks? stage = some visitor.hooks := by
  rw [visitors_ofRules, List.mem_filterMap]
  constructor
  · rintro ⟨rule, member, contributed⟩
    obtain ⟨hooks, found, rfl⟩ := Option.map_eq_some_iff.mp contributed
    exact ⟨List.mem_eraseDups.mp member, found⟩
  · rintro ⟨member, found⟩
    exact ⟨visitor.rule, List.mem_eraseDups.mpr member, by rw [Visitor.of?, found]; rfl⟩

/-- What is registered later leaves the place of a rule in the list as it is. -/
theorem idxOf_append_of_listed (listed : visitor ∈ (ofRules rules).visitors stage)
    (more : List Rule) :
    (rules ++ more).idxOf visitor.rule = rules.idxOf visitor.rule ∧
      rules.idxOf visitor.rule < rules.length := by
  have member := (mem_visitors_ofRules.mp listed).1
  exact ⟨List.idxOf_append_of_mem member, List.idxOf_lt_length_iff.mpr member⟩

theorem pairwise_visitors_ofRules (rules : List Rule) (stage : Stage) :
    ((ofRules rules).visitors stage).Pairwise fun visitor other =>
      rules.idxOf visitor.rule < rules.idxOf other.rule := by
  induction rules using List.reverseRecOn with
  | nil =>
      rw [visitors_ofRules]
      exact .nil
  | append_singleton rules rule ih =>
      have before : ((ofRules rules).visitors stage).Pairwise fun visitor other =>
          (rules ++ [rule]).idxOf visitor.rule < (rules ++ [rule]).idxOf other.rule := by
        refine ih.imp_of_mem ?_
        intro visitor other listed listed' earlier
        rwa [(idxOf_append_of_listed listed [rule]).1, (idxOf_append_of_listed listed' [rule]).1]
      by_cases known : rule ∈ rules
      · rw [ofRules_append (List.forall_mem_singleton.mpr known)]
        exact before
      · rw [visitors_ofRules_append known, List.pairwise_append]
        refine ⟨before, ?_, ?_⟩
        · cases Visitor.of? stage rule with
          | none => exact .nil
          | some visitor => exact List.pairwise_singleton _ _
        · intro visitor listed added isAdded
          obtain ⟨hooks, _, rfl⟩ := Option.map_eq_some_iff.mp (Option.mem_toList.mp isAdded)
          have last : (rules ++ [rule]).idxOf rule = rules.length := by
            rw [List.idxOf_append_of_notMem known, List.idxOf_cons_self, Nat.add_zero]
          obtain ⟨same, inside⟩ := idxOf_append_of_listed listed [rule]
          rwa [same, last]

theorem lookup?_ofRules_eq_some_iff {hooks : Hooks} :
    (ofRules rules).lookup? rule stage = some hooks ↔
      rule ∈ rules ∧ rule.hooks? stage = some hooks := by
  rw [lookup?, Option.map_eq_some_iff]
  constructor
  · rintro ⟨visitor, found, rfl⟩
    obtain rfl : visitor.rule = rule := eq_of_beq (List.find?_some found :)
    exact mem_visitors_ofRules.mp (List.mem_of_find?_eq_some found)
  · rintro ⟨member, contributed⟩
    have listed : ⟨rule, hooks⟩ ∈ (ofRules rules).visitors stage :=
      mem_visitors_ofRules.mpr ⟨member, contributed⟩
    cases found : ((ofRules rules).visitors stage).find? (·.rule == rule) with
    | none =>
        have passed := List.find?_eq_none.mp found _ listed
        exact absurd (beq_self_eq_true rule) passed
    | some visitor =>
        obtain rfl : visitor.rule = rule := eq_of_beq (List.find?_some found :)
        obtain ⟨_, contributed'⟩ := mem_visitors_ofRules.mp (List.mem_of_find?_eq_some found)
        exact ⟨visitor, rfl, Option.some.inj (contributed'.symm.trans contributed)⟩

theorem isActive_ofRules_iff :
    (ofRules rules).isActive stage = true ↔ ∃ rule ∈ rules, stage ∈ rule.activeStages := by
  rw [isActive, Bool.not_eq_true', List.isEmpty_eq_false_iff_exists_mem]
  simp only [mem_visitors_ofRules, Rule.mem_activeStages]
  constructor
  · rintro ⟨visitor, member, contributed⟩
    exact ⟨visitor.rule, member, visitor.hooks, contributed⟩
  · rintro ⟨rule, member, hooks, contributed⟩
    exact ⟨⟨rule, hooks⟩, member, contributed⟩

/-- However often and in whatever order rules are registered, each is a visitor of the stages in
which it takes part, once and where it first occurred, and the schedule answers accordingly.
Registering rules again changes nothing. -/
theorem ofRules_answers (rules : List Rule) :
    (∀ stage, (ofRules rules).Answers rules stage) ∧
      ∀ more, (∀ rule ∈ more, rule ∈ rules) → ofRules (rules ++ more) = ofRules rules := by
  refine ⟨fun stage => ?_, fun more => ofRules_append⟩
  have inOrder := pairwise_visitors_ofRules rules stage
  refine ⟨fun _ => mem_visitors_ofRules, ?_, inOrder, fun _ _ => lookup?_ofRules_eq_some_iff,
    isActive_ofRules_iff⟩
  refine List.pairwise_map.mpr (inOrder.imp ?_)
  intro visitor other before same
  exact absurd (congrArg rules.idxOf same) (Nat.ne_of_lt before)

/-- The rules change places, and are registered again. -/
theorem ofRules_answers_repeated :
    let rules := [Rule.templateLiteral, .memberAccess, .templateLiteral]
    let more := [Rule.memberAccess, .templateLiteral]
    (∀ rule ∈ more, rule ∈ rules) ∧ ofRules (rules ++ more) = ofRules rules ∧
      ((ofRules (rules ++ more)).visitors .converting).map Visitor.rule =
        [.templateLiteral, .memberAccess] ∧
      (ofRules rules).lookup? .memberAccess .converting = some (.enter MemberAccess.enter) := by
  intro rules more
  have known : ∀ rule ∈ more, rule ∈ rules := by decide
  obtain ⟨answers, again⟩ := ofRules_answers rules
  have found := ((answers .converting).lookedUp .memberAccess (.enter MemberAccess.enter)).mpr
    ⟨by decide, rfl⟩
  have same := again more known
  exact ⟨known, same, same ▸ rfl, found⟩

end Schedule

end EstreeLowering
