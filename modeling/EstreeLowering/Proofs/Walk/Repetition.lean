import EstreeLowering.Proofs.Walk.Settling

namespace EstreeLowering.Pipeline

variable {rules : List Rule} {maxDepth : Nat} {stage : Stage} {stages : List Stage} {root : Node}

theorem runStage_of_ne_converting (rules : List Rule) (maxDepth : Nat) (root : Node)
    (another : stage ≠ .converting) :
    ((ofRules rules maxDepth).runStage stage root).1 = root ∧
      ((ofRules rules maxDepth).runStage stage root).2.tally = .zero :=
  runStage_of_no_visitors root (visitors_of_ne_converting rules maxDepth another)

/-- A stage does nothing to any tree, or it walks every tree. -/
theorem runStage_cases (rules : List Rule) (maxDepth : Nat) (stage : Stage) :
    let run := (ofRules rules maxDepth).runStage stage
    (∀ root, (run root).1 = root ∧ (run root).2.tally = .zero) ∨
      ∀ root, (run root).1 = lowered rules.eraseDups maxDepth none root ∧
        (run root).2.tally = tallied rules.eraseDups maxDepth none root := by
  intro run
  by_cases converting : stage = .converting
  · subst converting
    by_cases registered : rules = []
    · subst registered
      exact .inl fun root => runStage_of_no_rules maxDepth root .converting
    · exact .inr fun root => runStage_of_rules maxDepth root registered
  · exact .inl fun root => runStage_of_ne_converting rules maxDepth root converting

theorem runStages_cons_tree (pipeline : Pipeline) :
    (pipeline.runStages (stage :: stages) root).1 =
      (pipeline.runStages stages (pipeline.runStage stage root).1).1 := rfl

theorem runStages_cons_tally (pipeline : Pipeline) :
    (pipeline.runStages (stage :: stages) root).2.tally =
      (pipeline.runStage stage root).2.tally.add
        (pipeline.runStages stages (pipeline.runStage stage root).1).2.tally := rfl

theorem runStages_cons_of_skipped {pipeline : Pipeline}
    (skipped : (pipeline.runStage stage root).1 = root ∧
      (pipeline.runStage stage root).2.tally = .zero) (stages : List Stage) :
    (pipeline.runStages (stage :: stages) root).1 = (pipeline.runStages stages root).1 ∧
      (pipeline.runStages (stage :: stages) root).2.tally =
        (pipeline.runStages stages root).2.tally := by
  rw [runStages_cons_tree, runStages_cons_tally, skipped.1, skipped.2, Tally.zero_add]
  exact ⟨rfl, rfl⟩

theorem runStages_of_idle (idle : .converting ∉ stages ∨ rules = []) :
    ((ofRules rules maxDepth).runStages stages root).1 = root ∧
      ((ofRules rules maxDepth).runStages stages root).2.tally = .zero := by
  induction stages with
  | nil => exact ⟨rfl, rfl⟩
  | cons stage stages ih =>
      have skipped : ((ofRules rules maxDepth).runStage stage root).1 = root ∧
          ((ofRules rules maxDepth).runStage stage root).2.tally = .zero := by
        rcases idle with absent | rfl
        · exact runStage_of_ne_converting rules maxDepth root fun same =>
            absent (same ▸ List.mem_cons_self)
        · exact runStage_of_no_rules maxDepth root stage
      obtain ⟨tree, tally⟩ := runStages_cons_of_skipped skipped stages
      rw [tree, tally]
      exact ih (idle.imp_left fun absent member => absent (List.mem_cons_of_mem stage member))

/-- The converting stage leaves its own result alone and replaces nothing in it. -/
theorem runStage_converting_again (rules : List Rule) (maxDepth : Nat) (root : Node) :
    let once := (ofRules rules maxDepth).runStage .converting root
    let again := (ofRules rules maxDepth).runStage .converting once.1
    again.1 = once.1 ∧ again.2.tally.replaced = 0 := by
  intro once again
  obtain ⟨tree, _⟩ := runStage_converting rules maxDepth root
  obtain ⟨tree', replaced'⟩ := runStage_converting rules maxDepth once.1
  have settled : Settled rules.eraseDups maxDepth none once.1 := by
    rw [tree]
    exact settled_lowered rules.eraseDups maxDepth none root
  obtain ⟨unchanged, uncounted⟩ := lowered_of_settled settled
  exact ⟨tree'.trans unchanged, replaced'.trans uncounted⟩

/-- On a tree that the converting stage leaves alone each of its occurrences visits the same
nodes. -/
theorem runStages_of_unchanged
    (unchanged : ((ofRules rules maxDepth).runStage .converting root).1 = root)
    (uncounted : ((ofRules rules maxDepth).runStage .converting root).2.tally.replaced = 0)
    (stages : List Stage) :
    ((ofRules rules maxDepth).runStages stages root).1 = root ∧
      ((ofRules rules maxDepth).runStages stages root).2.tally =
        ⟨stages.count .converting *
          ((ofRules rules maxDepth).runStage .converting root).2.tally.visited, 0⟩ := by
  induction stages with
  | nil => exact ⟨rfl, by rw [List.count_nil, Nat.zero_mul]; rfl⟩
  | cons stage stages ih =>
      by_cases converting : stage = .converting
      · subst converting
        rw [runStages_cons_tree, runStages_cons_tally, unchanged, ih.1, ih.2, List.count_cons_self,
          Nat.succ_mul, Nat.add_comm]
        exact ⟨rfl, congrArg (Tally.mk _) uncounted⟩
      · have skipped := runStage_of_ne_converting rules maxDepth root converting
        obtain ⟨tree, tally⟩ := runStages_cons_of_skipped skipped stages
        rw [tree, tally, List.count_cons_of_ne converting]
        exact ih

/-- With the converting stage among them, stages leave the tree and count the replacements of that
stage alone; every further occurrence of it only visits its result again. -/
theorem runStages_of_converting (rules : List Rule) (maxDepth : Nat) (root : Node)
    (member : .converting ∈ stages) :
    let once := (ofRules rules maxDepth).runStage .converting root
    let again := (ofRules rules maxDepth).runStage .converting once.1
    ((ofRules rules maxDepth).runStages stages root).1 = once.1 ∧
      ((ofRules rules maxDepth).runStages stages root).2.tally =
        ⟨once.2.tally.visited + (stages.count .converting - 1) * again.2.tally.visited,
          once.2.tally.replaced⟩ := by
  intro once again
  induction stages with
  | nil => cases member
  | cons stage stages ih =>
      by_cases converting : stage = .converting
      · subst converting
        obtain ⟨unchanged, uncounted⟩ := runStage_converting_again rules maxDepth root
        obtain ⟨tree, tally⟩ := runStages_of_unchanged unchanged uncounted stages
        rw [runStages_cons_tree, runStages_cons_tally, tree, tally, List.count_cons_self,
          Nat.add_sub_cancel]
        exact ⟨rfl, rfl⟩
      · have skipped := runStage_of_ne_converting rules maxDepth root converting
        obtain ⟨tree, tally⟩ := runStages_cons_of_skipped skipped stages
        rw [tree, tally, List.count_cons_of_ne converting]
        exact ih (List.mem_of_ne_of_mem (Ne.symm converting) member)

/-- A run depends on its stages only through the converting stage: whether it is among them, and
for the number of visits how often. -/
theorem runStages_eq_converting (rules : List Rule) (maxDepth : Nat) (stages : List Stage)
    (root : Node) :
    let run := (ofRules rules maxDepth).runStages stages root
    let once := (ofRules rules maxDepth).runStage .converting root
    let again := (ofRules rules maxDepth).runStage .converting once.1
    (.converting ∉ stages ∨ rules = [] → run.1 = root ∧ run.2.tally = .zero) ∧
      (.converting ∈ stages → run.1 = once.1 ∧
        run.2.tally.replaced = once.2.tally.replaced ∧
        run.2.tally.visited = once.2.tally.visited +
          (stages.count .converting - 1) * again.2.tally.visited) ∧
      again.1 = once.1 := by
  intro run once again
  refine ⟨runStages_of_idle, ?_, (runStage_converting_again rules maxDepth root).1⟩
  intro member
  obtain ⟨tree, tally⟩ := runStages_of_converting rules maxDepth root member
  have replaced := congrArg Tally.replaced tally
  have visited := congrArg Tally.visited tally
  exact ⟨tree, replaced, visited⟩

end EstreeLowering.Pipeline
