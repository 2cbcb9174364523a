import EstreeLowering.Proofs.Walk.Lowering

/-!
A walk one step at a time.

Between two steps a walk is a value: what it is about to do, the open nodes above that, and the
depth as a counter of 32 bits, as wide as a limit can be. The counter goes up by one when a node is
opened and down by one when it is closed, and a step that would carry it out of its range does not
exist. Nothing here bounds the number of steps: the children of a node are those that its entering
hooks leave it, which may be more than it had. So that the steps come to an end, and to what `visit`
gives, is shown along the levels that are left to `visit`, not along the tree.
-/

namespace EstreeLowering

/-- The hooks of a node that run before its children are visited, or those that run after. -/
inductive Side where
  | entering
  | leaving

def Side.select : Side → Hooks → Option Hook
  | .entering => Hooks.entering?
  | .leaving => Hooks.leaving?

/-- A node between its entering and its leaving hooks. Of the children that the former left it, some
are visited and the others wait. -/
structure OpenNode where
  above : Option NodeKind
  node : Node
  visited : List Node
  waiting : List Node

/-- What a walk is about to do. -/
inductive Focus where
  | visit (above : Option NodeKind) (node : Node)
  | hooks (side : Side) (left : List Visitor) (above : Option NodeKind) (node : Node)
  | children (parent : OpenNode)
  | done (node : Node)

/-- A walk between two steps, with the open nodes above its focus from the innermost one. -/
structure Moment where
  focus : Focus
  outer : List OpenNode
  depth : UInt32
  progress : Progress

namespace Moment

def level (moment : Moment) : Nat :=
  match moment.focus with
  | .visit _ _ | .done _ => moment.outer.length
  | .hooks _ _ _ _ | .children _ => moment.outer.length + 1

/-- One step. A node is opened only below the limit and if there is a count one higher, and closed
only if there is one lower. -/
inductive Next (visitors : List Visitor) (maxDepth : UInt32) : Moment → Moment → Prop
  | limit {above node outer depth progress} (atLimit : maxDepth ≤ depth) :
      Next visitors maxDepth ⟨.visit above node, outer, depth, progress⟩
        ⟨.done node, outer, depth, progress.reachLimit maxDepth.toNat⟩
  | openNode {above node outer depth progress} {deeper : UInt32} (below : depth < maxDepth)
      (up : deeper.toNat = depth.toNat + 1) :
      Next visitors maxDepth ⟨.visit above node, outer, depth, progress⟩
        ⟨.hooks .entering visitors above node, outer, deeper, progress.countVisit⟩
  | call {side visitor left above node outer depth progress hook}
      (found : Side.select side visitor.hooks = some hook) :
      Next visitors maxDepth ⟨.hooks side (visitor :: left) above node, outer, depth, progress⟩
        ⟨.hooks side left above (applyHook visitor.rule hook above node progress).1, outer, depth,
          (applyHook visitor.rule hook above node progress).2⟩
  | skip {side visitor left above node outer depth progress}
      (missing : Side.select side visitor.hooks = none) :
      Next visitors maxDepth ⟨.hooks side (visitor :: left) above node, outer, depth, progress⟩
        ⟨.hooks side left above node, outer, depth, progress⟩
  | entered {above node outer depth progress} :
      Next visitors maxDepth ⟨.hooks .entering [] above node, outer, depth, progress⟩
        ⟨.children ⟨above, node, [], node.children⟩, outer, depth, progress⟩
  | descend {above node visited child waiting outer depth progress} :
      Next visitors maxDepth
        ⟨.children ⟨above, node, visited, child :: waiting⟩, outer, depth, progress⟩
        ⟨.visit (some node.kind) child, ⟨above, node, visited, waiting⟩ :: outer, depth, progress⟩
  | ascend {above node visited child waiting outer depth progress} :
      Next visitors maxDepth
        ⟨.done child, ⟨above, node, visited, waiting⟩ :: outer, depth, progress⟩
        ⟨.children ⟨above, node, visited ++ [child], waiting⟩, outer, depth, progress⟩
  | leave {above node visited outer depth progress} :
      Next visitors maxDepth ⟨.children ⟨above, node, visited, []⟩, outer, depth, progress⟩
        ⟨.hooks .leaving visitors above (node.withChildren visited), outer, depth, progress⟩
  | closeNode {above node outer depth progress} {shallower : UInt32}
      (down : depth.toNat = shallower.toNat + 1) :
      Next visitors maxDepth ⟨.hooks .leaving [] above node, outer, depth, progress⟩
        ⟨.done node, outer, shallower, progress⟩

end Moment

/-- Steps lead from the first moment to the last one, past those of the list. -/
inductive Runs (visitors : List Visitor) (maxDepth : UInt32) :
    Moment → List Moment → Moment → Prop
  | nil {moment : Moment} : Runs visitors maxDepth moment [] moment
  | cons {moment after last : Moment} {passed : List Moment}
      (step : moment.Next visitors maxDepth after)
      (behind : Runs visitors maxDepth after passed last) :
      Runs visitors maxDepth moment (moment :: passed) last

/-- Steps lead from the first moment to the last one. -/
def Reaches (visitors : List Visitor) (maxDepth : UInt32) (first last : Moment) : Prop :=
  ∃ passed, Runs visitors maxDepth first passed last

variable {visitors : List Visitor} {maxDepth depth : UInt32}
  {first moment after other last : Moment} {passed others : List Moment}

/-- What a walk does next is settled by the moment that it is in. -/
theorem Moment.Next.unique (step : moment.Next visitors maxDepth after)
    (another : moment.Next visitors maxDepth other) : after = other := by
  cases step with
  | limit atLimit =>
      cases another with
      | limit => rfl
      | openNode below => exact absurd below (UInt32.not_lt.mpr atLimit)
  | openNode below up =>
      cases another with
      | limit atLimit => exact absurd below (UInt32.not_lt.mpr atLimit)
      | openNode _ up' =>
          obtain rfl := UInt32.toNat_inj.mp (up.trans up'.symm)
          rfl
  | call found =>
      cases another with
      | call found' =>
          obtain rfl := Option.some.inj (found.symm.trans found')
          rfl
      | skip missing => exact absurd (found.symm.trans missing) (Option.some_ne_none _)
  | skip missing =>
      cases another with
      | call found => exact absurd (found.symm.trans missing) (Option.some_ne_none _)
      | skip => rfl
  | closeNode down =>
      cases another with
      | closeNode down' =>
          obtain rfl := UInt32.toNat_inj.mp (Nat.succ.inj (down.symm.trans down'))
          rfl
  | entered | descend | ascend | leave =>
      cases another
      rfl

/-- With the outermost node handed back a walk is at its end. -/
theorem Moment.not_next_of_done {node : Node} {progress : Progress} :
    ¬ Moment.Next visitors maxDepth ⟨.done node, [], depth, progress⟩ after := by
  intro step
  cases step

theorem Runs.append (one : Runs visitors maxDepth first passed moment)
    (other : Runs visitors maxDepth moment others last) :
    Runs visitors maxDepth first (passed ++ others) last := by
  induction one with
  | nil => exact other
  | cons step _ ih => exact .cons step (ih other)

theorem Runs.rest (whole : Runs visitors maxDepth first passed last)
    (ended : ∀ after, ¬ last.Next visitors maxDepth after)
    (part : Runs visitors maxDepth first others moment) :
    ∃ rest, passed = others ++ rest ∧ Runs visitors maxDepth moment rest last := by
  induction part generalizing passed with
  | nil => exact ⟨passed, rfl, whole⟩
  | cons step _ ih =>
      cases whole with
      | nil => exact absurd step (ended _)
      | cons step' behind =>
          obtain rfl := step'.unique step
          obtain ⟨rest, rfl, runs⟩ := ih behind
          exact ⟨rest, rfl, runs⟩

namespace Reaches

theorem refl (moment : Moment) : Reaches visitors maxDepth moment moment :=
  ⟨[], .nil⟩

theorem head (step : first.Next visitors maxDepth moment)
    (onward : Reaches visitors maxDepth moment last) : Reaches visitors maxDepth first last := by
  obtain ⟨passed, runs⟩ := onward
  exact ⟨_, .cons step runs⟩

theorem trans (one : Reaches visitors maxDepth first moment)
    (other : Reaches visitors maxDepth moment last) : Reaches visitors maxDepth first last := by
  obtain ⟨passed, before⟩ := one
  obtain ⟨others, behind⟩ := other
  exact ⟨_, before.append behind⟩

end Reaches

theorem reaches_hooks (side : Side) (left : List Visitor) (above : Option NodeKind) (node : Node)
    (outer : List OpenNode) (progress : Progress) :
    let applied := applyHooks side.select left above node progress
    Reaches visitors maxDepth ⟨.hooks side left above node, outer, depth, progress⟩
      ⟨.hooks side [] above applied.1, outer, depth, applied.2⟩ := by
  induction left generalizing node progress with
  | nil => exact .refl _
  | cons visitor left ih =>
      rw [applyHooks_cons]
      cases found : side.select visitor.hooks with
      | none => exact .head (.skip found) (ih node progress)
      | some hook => exact .head (.call found) (ih _ _)

/-- The children are visited one after the other, each with the counter as for the first one. -/
theorem reaches_children {visitChild : Node → Progress → Node × Progress}
    (above : Option NodeKind) (node : Node)
    (each : ∀ child outer progress, Reaches visitors maxDepth
      ⟨.visit (some node.kind) child, outer, depth, progress⟩
      ⟨.done (visitChild child progress).1, outer, depth, (visitChild child progress).2⟩)
    (visited waiting : List Node) (outer : List OpenNode) (progress : Progress) :
    let changed := throughList visitChild waiting progress
    Reaches visitors maxDepth ⟨.children ⟨above, node, visited, waiting⟩, outer, depth, progress⟩
      ⟨.children ⟨above, node, visited ++ changed.1, []⟩, outer, depth, changed.2⟩ := by
  induction waiting generalizing visited progress with
  | nil =>
      simp only [throughList, List.append_nil]
      exact .refl _
  | cons child waiting ih =>
      intro changed
      have inOrder : visited ++ changed.1 = visited ++ [(visitChild child progress).1] ++
          (throughList visitChild waiting (visitChild child progress).2).1 :=
        List.append_cons _ _ _
      rw [inOrder]
      exact .head .descend ((each child _ progress).trans (.head .ascend (ih _ _)))

theorem exists_deeper (below : depth < maxDepth) :
    ∃ deeper : UInt32, deeper.toNat = depth.toNat + 1 := by
  have fits : depth.toNat + 1 < UInt32.size :=
    Nat.lt_of_le_of_lt (UInt32.lt_iff_toNat_lt.mp below) maxDepth.toNat_lt_size
  exact ⟨.ofNat (depth.toNat + 1), UInt32.toNat_ofNat_of_lt fits⟩

/-- The steps lead from a node that is to be visited to what `visit` makes of it with as many levels
as the counter is below the limit, and leave the counter where it was. -/
theorem reaches_visit (depthLeft : Nat) (levels : depth.toNat + depthLeft = maxDepth.toNat)
    (above : Option NodeKind) (node : Node) (outer : List OpenNode) (progress : Progress) :
    let outcome := visit visitors maxDepth.toNat depthLeft above node progress
    Reaches visitors maxDepth ⟨.visit above node, outer, depth, progress⟩
      ⟨.done outcome.1, outer, depth, outcome.2⟩ := by
  induction depthLeft generalizing depth above node outer progress with
  | zero =>
      have atLimit : maxDepth ≤ depth := UInt32.le_iff_toNat_le.mpr (Nat.le_of_eq levels.symm)
      exact .head (.limit atLimit) (.refl _)
  | succ depthLeft ih =>
      have below : depth < maxDepth := UInt32.lt_iff_toNat_lt.mpr (by omega)
      obtain ⟨deeper, up⟩ := exists_deeper below
      have levelsBelow : deeper.toNat + depthLeft = maxDepth.toNat := by omega
      refine .head (.openNode below up) ?_
      refine (reaches_hooks .entering visitors above node outer progress.countVisit).trans ?_
      refine .head .entered ?_
      refine (reaches_children above _ (fun child => ih levelsBelow _ child) [] _ outer _).trans ?_
      refine .head .leave ?_
      refine (reaches_hooks .leaving visitors above _ outer _).trans ?_
      exact .head (.closeNode up) (.refl _)

end EstreeLowering
