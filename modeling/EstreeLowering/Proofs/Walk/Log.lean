import EstreeLowering.Proofs.Walk.Lowering

/-!
What a walk of the converting stage reports, as a function of the tree.

Only one thing in it depends on what was reported before: of the nodes at the limit the first one is
reported, and no other. So the events are those that the nodes of the tree give rise to, each node
at the limit among them, and from these all notices of the limit but the first are struck out.
-/

namespace EstreeLowering

variable {rules : List Rule} {maxDepth depthLeft : Nat} {above : Option NodeKind} {node : Node}
  {first second third : Progress} {events others : List Event}

/-- A notice of the limit: nothing else that a run reports is a warning. -/
def Event.isNotice (event : Event) : Bool :=
  event.level = .warn

/-- The entries of a log without the notices, but for the first one if there was none before. -/
def unrepeated (isNotice : α → Bool) : Bool → List α → List α
  | _, [] => []
  | reached, entry :: entries =>
      if isNotice entry then
        if reached then unrepeated isNotice true entries
        else entry :: unrepeated isNotice true entries
      else entry :: unrepeated isNotice reached entries

section

variable {α β : Type} {isNotice : α → Bool}

theorem unrepeated_append (reached : Bool) (entries others : List α) :
    unrepeated isNotice reached (entries ++ others) =
      unrepeated isNotice reached entries ++
        unrepeated isNotice (reached || entries.any isNotice) others := by
  induction entries generalizing reached with
  | nil => simp [unrepeated]
  | cons entry entries ih =>
      cases notice : isNotice entry with
      | true => cases reached <;> simp [unrepeated, notice, ih]
      | false => simp [unrepeated, notice, ih]

theorem unrepeated_of_any_eq_false {entries : List α} (silent : entries.any isNotice = false)
    (reached : Bool) : unrepeated isNotice reached entries = entries := by
  induction entries with
  | nil => rfl
  | cons entry entries ih =>
      obtain ⟨here, behind⟩ := Bool.or_eq_false_iff.mp silent
      simp [unrepeated, here, ih behind]

/-- Striking out notices leaves alone what is read off the other entries. -/
theorem filter_unrepeated {keep : α → Bool}
    (silent : ∀ entry, isNotice entry = true → keep entry = false) (reached : Bool)
    (entries : List α) :
    (unrepeated isNotice reached entries).filter keep = entries.filter keep := by
  induction entries generalizing reached with
  | nil => rfl
  | cons entry entries ih =>
      cases notice : isNotice entry with
      | true =>
          have dropped := silent entry notice
          cases reached <;> simp [unrepeated, notice, dropped, ih]
      | false => simp [unrepeated, notice, List.filter_cons, ih]

theorem map_unrepeated (isNotice : α → Bool) (read : β → α) (reached : Bool) (entries : List β) :
    (unrepeated (fun entry => isNotice (read entry)) reached entries).map read =
      unrepeated isNotice reached (entries.map read) := by
  induction entries generalizing reached with
  | nil => rfl
  | cons entry entries ih =>
      cases notice : isNotice (read entry) <;> cases reached <;> simp [unrepeated, notice, ih]

end

/-- How a part of a walk that gives rise to the events leaves the progress. -/
structure Progress.Logs (events : List Event) (before after : Progress) : Prop where
  reported : after.events.toList =
    before.events.toList ++ unrepeated Event.isNotice before.limitReached events
  limitReached : after.limitReached = (before.limitReached || events.any Event.isNotice)

namespace Progress.Logs

theorem refl (progress : Progress) : Logs [] progress progress :=
  ⟨(List.append_nil _).symm, (Bool.or_false _).symm⟩

theorem countVisit (progress : Progress) : Logs [] progress progress.countVisit :=
  ⟨(List.append_nil _).symm, (Bool.or_false _).symm⟩

theorem trans (one : Logs events first second) (other : Logs others second third) :
    Logs (events ++ others) first third := by
  refine ⟨?_, ?_⟩
  · rw [other.reported, one.reported, one.limitReached, unrepeated_append, List.append_assoc]
  · rw [other.limitReached, one.limitReached, List.any_append, Bool.or_assoc]

theorem record (silent : events.any Event.isNotice = false) (progress : Progress) :
    Logs events progress (progress.record events) := by
  refine ⟨?_, ?_⟩
  · rw [unrepeated_of_any_eq_false silent]
    simp [Progress.record]
  · rw [silent, Bool.or_false]
    rfl

theorem reachLimit (maxDepth : Nat) (progress : Progress) :
    Logs [.depthExceeded maxDepth] progress (progress.reachLimit maxDepth) := by
  have notice : (Event.depthExceeded maxDepth).isNotice = true := rfl
  cases reached : progress.limitReached with
  | true => exact ⟨by simp [Progress.reachLimit, reached, unrepeated, notice],
      by simp [Progress.reachLimit, reached]⟩
  | false => exact ⟨by simp [Progress.reachLimit, Progress.record, reached, unrepeated, notice],
      by simp [Progress.reachLimit, reached, notice]⟩

theorem throughList {step : Node → Progress → Node × Progress} {log : Node → List Event}
    (each : ∀ node progress, Logs (log node) progress (step node progress).2) (nodes : List Node)
    (progress : Progress) :
    Logs (nodes.flatMap log) progress (throughList step nodes progress).2 := by
  induction nodes generalizing progress with
  | nil => exact refl progress
  | cons node nodes ih => exact (each node progress).trans (ih _)

end Progress.Logs

/-- What is reported of a hook: what its rule has to say, and then whether the node was replaced. -/
def HookResult.log (rule : Rule) (result : HookResult) : List Event :=
  result.events ++ (result.replacement.map fun replacement =>
    .nodeReplaced rule result.node.typeName replacement.typeName).toList

def enteredLog (rules : List Rule) (above : Option NodeKind) (node : Node) : List Event :=
  if .memberAccess ∈ rules then (MemberAccess.enter node above).log .memberAccess else []

def exitedLog (rules : List Rule) (above : Option NodeKind) (node : Node) : List Event :=
  if .templateLiteral ∈ rules then (Template.leave node above).log .templateLiteral else []

@[simp] theorem log_keep (rule : Rule) (node : Node) : (HookResult.keep node).log rule = [] := rfl

theorem log_enter {parent : NodeKind} {object : Node} {key : String} {optional : Bool} :
    (MemberAccess.enter (.member object (.identifier key) false optional) (some parent)).log
      .memberAccess = [.memberConverted key] := rfl

theorem log_leave {parent : NodeKind} (untagged : parent ≠ .taggedTemplate)
    (quasis : List TemplateElement) (expressions : List Node) :
    (Template.leave (.templateLiteral quasis expressions) (some parent)).log .templateLiteral =
      [.templateFlattened quasis.length expressions.length,
        .nodeReplaced .templateLiteral "TemplateLiteral"
          (Template.flatten quasis expressions).typeName] := by
  cases parent with
  | taggedTemplate => exact absurd rfl untagged
  | _ => rfl

theorem enteredLog_of_keptBy (kept : KeptBy .memberAccess above node) :
    enteredLog rules above node = [] := by
  rw [enteredLog, enter_of_keptBy kept, log_keep, ite_self]

theorem exitedLog_of_keptBy (kept : KeptBy .templateLiteral above node) :
    exitedLog rules above node = [] := by
  rw [exitedLog, leave_of_keptBy kept, log_keep, ite_self]

theorem enteredLog_cases (rules : List Rule) (above : Option NodeKind) (node : Node) :
    enteredLog rules above node = [] ∨
      ∃ key, enteredLog rules above node = [.memberConverted key] := by
  by_cases kept : KeptBy .memberAccess above node
  · exact .inl (enteredLog_of_keptBy kept)
  · obtain ⟨parent, result, rfl, rewrites⟩ := exists_rewrites_of_not_keptBy kept
    cases rewrites with
    | access =>
        rw [enteredLog, log_enter]
        split
        · exact .inr ⟨_, rfl⟩
        · exact .inl rfl

theorem exitedLog_cases (rules : List Rule) (above : Option NodeKind) (node : Node) :
    exitedLog rules above node = [] ∨ ∃ quasis expressions after,
      exitedLog rules above node = [.templateFlattened quasis expressions,
        .nodeReplaced .templateLiteral "TemplateLiteral" after] := by
  by_cases kept : KeptBy .templateLiteral above node
  · exact .inl (exitedLog_of_keptBy kept)
  · obtain ⟨parent, quasis, expressions, rfl, untagged, rfl⟩ := exists_template_of_not_keptBy kept
    rw [exitedLog, log_leave untagged]
    split
    · exact .inr ⟨_, _, _, rfl⟩
    · exact .inl rfl

theorem any_isNotice_enteredLog (rules : List Rule) (above : Option NodeKind) (node : Node) :
    (enteredLog rules above node).any Event.isNotice = false := by
  rcases enteredLog_cases rules above node with same | ⟨key, same⟩ <;> rw [same] <;> rfl

theorem any_isNotice_exitedLog (rules : List Rule) (above : Option NodeKind) (node : Node) :
    (exitedLog rules above node).any Event.isNotice = false := by
  rcases exitedLog_cases rules above node with same | ⟨quasis, expressions, after, same⟩ <;>
    rw [same] <;> rfl

theorem applyHook_logs {rule : Rule} {hook : Hook}
    (silent : ((hook node above).log rule).any Event.isNotice = false) (progress : Progress) :
    Progress.Logs ((hook node above).log rule) progress
      (applyHook rule hook above node progress).2 := by
  obtain ⟨reported, limitReached⟩ := Progress.Logs.record silent progress
  refine ⟨Eq.trans ?_ reported, Eq.trans ?_ limitReached⟩
  · cases replaced : (hook node above).replacement <;>
      simp [applyHook, HookResult.log, replaced, Progress.record, Progress.countReplacement]
  · cases replaced : (hook node above).replacement <;>
      simp [applyHook, replaced, Progress.record, Progress.countReplacement]

theorem entering_logs (nodup : rules.Nodup) (above : Option NodeKind) (node : Node)
    (progress : Progress) :
    Progress.Logs (enteredLog rules above node) progress
      (applyHooks Hooks.entering? (convertingVisitors rules) above node progress).2 := by
  have silent := any_isNotice_enteredLog rules above node
  rw [applyHooks_entering nodup]
  by_cases member : .memberAccess ∈ rules
  · simp only [enteredLog, if_pos member] at silent ⊢
    exact applyHook_logs silent progress
  · simp only [enteredLog, if_neg member]
    exact .refl progress

theorem leaving_logs (nodup : rules.Nodup) (above : Option NodeKind) (node : Node)
    (progress : Progress) :
    Progress.Logs (exitedLog rules above node) progress
      (applyHooks Hooks.leaving? (convertingVisitors rules) above node progress).2 := by
  have silent := any_isNotice_exitedLog rules above node
  rw [applyHooks_leaving nodup]
  by_cases member : .templateLiteral ∈ rules
  · simp only [exitedLog, if_pos member] at silent ⊢
    exact applyHook_logs silent progress
  · simp only [exitedLog, if_neg member]
    exact .refl progress

/-- The events that the nodes of a tree give rise to in a walk of `depthLeft` levels, in their
order, with one for each node at the limit. Of what is below a node only leaves are changed before
they are visited, so its children are taken as they were. -/
def encountered (rules : List Rule) (maxDepth : Nat) : Nat → Option NodeKind → Node → List Event
  | 0, _, _ => [.depthExceeded maxDepth]
  | depthLeft + 1, above, node =>
      enteredLog rules above node ++
        node.children.flatMap (encountered rules maxDepth depthLeft (some node.kind)) ++
          exitedLog rules above (walked rules depthLeft above node)

theorem encountered_of_leaf (leaf : node.children = []) (kept : ∀ rule, KeptBy rule above node) :
    encountered rules maxDepth (depthLeft + 1) above node = [] := by
  have keptWalked := (keptBy_template_congr (kind_walked rules depthLeft above node)).mpr
    (kept .templateLiteral)
  simp [encountered, leaf, enteredLog_of_keptBy (kept .memberAccess),
    exitedLog_of_keptBy keptWalked]

/-- A name and a string give rise to the same events, one at the limit and none above. -/
theorem encountered_entered (rules : List Rule) (maxDepth depthLeft : Nat)
    (above parent : Option NodeKind) (node : Node) :
    (entered rules above node).children.flatMap (encountered rules maxDepth depthLeft parent) =
      node.children.flatMap (encountered rules maxDepth depthLeft parent) := by
  apply flatMap_children_entered
  intro text
  cases depthLeft with
  | zero => rfl
  | succ depthLeft =>
      have literal : ∀ rule, KeptBy rule parent (.stringLiteral text) :=
        fun _ _ _ ⟨_, rewrites⟩ => nomatch rewrites
      have identifier : ∀ rule, KeptBy rule parent (.identifier text) :=
        fun _ _ _ ⟨_, rewrites⟩ => nomatch rewrites
      rw [encountered_of_leaf rfl literal, encountered_of_leaf rfl identifier]

theorem visit_logs (nodup : rules.Nodup) (maxDepth depthLeft : Nat) (above : Option NodeKind)
    (node : Node) (progress : Progress) :
    Progress.Logs (encountered rules maxDepth depthLeft above node) progress
      (visit (convertingVisitors rules) maxDepth depthLeft above node progress).2 := by
  induction depthLeft generalizing above node progress with
  | zero => exact .reachLimit maxDepth progress
  | succ depthLeft ih =>
      have inner := entering_fst nodup above node progress.countVisit
      have onEntering := entering_logs nodup above node progress.countVisit
      have below := Progress.Logs.throughList (ih (some node.kind))
        (entered rules above node).children
      rw [encountered_entered] at below
      have whole := (((Progress.Logs.countVisit progress).trans onEntering).trans (below _)).trans
        (leaving_logs nodup above (walked rules depthLeft above node) _)
      simpa only [visit, encountered, walked, Node.mapChildren, inner, kind_entered,
        throughList_fst fun child progress => visit_fst nodup maxDepth depthLeft _ child progress,
        List.nil_append] using whole

/-- A walk reports what the nodes of the tree give rise to, but of the nodes at the limit only the
first one. -/
theorem walk_events (nodup : rules.Nodup) (maxDepth : Nat) (root : Node) :
    (walk (convertingVisitors rules) maxDepth root).2.events.toList =
      unrepeated Event.isNotice false (encountered rules maxDepth maxDepth none root) :=
  (visit_logs nodup maxDepth maxDepth none root .start).reported

end EstreeLowering
