import EstreeLowering.Proofs.Walk.Log

namespace EstreeLowering

open Node (Site)

/-- An event as it is logged. -/
structure Event.Line where
  isSpan : Bool
  level : Level
  title : String
  fields : List (String × Event.FieldValue)

def Event.line (event : Event) : Event.Line :=
  ⟨event.isSpan, event.level, event.title, event.fields⟩

namespace Event.Line

def stage (stage : Stage) : Line :=
  ⟨true, .debug, "transform", [("stage", .text stage.name)]⟩

def skipped : Line :=
  ⟨false, .debug, "no transformer active, skipping walk", []⟩

def finished (tally : Tally) : Line :=
  ⟨false, .debug, "stage walk finished",
    [("visited", .number tally.visited), ("replaced", .number tally.replaced)]⟩

def conversion (key : String) : Line :=
  ⟨false, .trace, "member access converted to computed form", [("key", .text key)]⟩

def flattening (quasis expressions : Nat) : Line :=
  ⟨false, .trace, "flattening template literal",
    [("quasis", .number quasis), ("expressions", .number expressions)]⟩

def replacement (rule : Rule) (before after : String) : Line :=
  ⟨false, .trace, "node replaced",
    [("transformer", .text rule.name), ("from", .text before), ("to", .text after)]⟩

def limit (maxDepth : Nat) : Line :=
  ⟨false, .warn, "syntax tree exceeds traversal depth, deeper nodes left unchanged",
    [("max_depth", .number maxDepth)]⟩

def isWarning (line : Line) : Bool :=
  line.level = .warn

def isConversion (line : Line) : Bool :=
  line.title = "member access converted to computed form"

def isFlattening (line : Line) : Bool :=
  line.title = "flattening template literal"

def isFinished (line : Line) : Bool :=
  line.title = "stage walk finished"

/-- The number in a field, zero if the line has no such field. -/
def number (key : String) (line : Line) : Nat :=
  match line.fields.lookup key with
  | some (.number value) => value
  | _ => 0

theorem number_visited (tally : Tally) : (finished tally).number "visited" = tally.visited := rfl

theorem number_replaced (tally : Tally) : (finished tally).number "replaced" = tally.replaced := rfl

end Event.Line

open Event (Line)

/-- What a walk may report: conversions, templates, each followed at once by its replacement, and
notices of the limit. -/
inductive WalkLines (maxDepth : Nat) : List Line → Prop
  | nil : WalkLines maxDepth []
  | conversion {key lines} (behind : WalkLines maxDepth lines) :
      WalkLines maxDepth (.conversion key :: lines)
  | flattening {quasis expressions after lines} (behind : WalkLines maxDepth lines) :
      WalkLines maxDepth (.flattening quasis expressions ::
        .replacement .templateLiteral "TemplateLiteral" after :: lines)
  | limit {lines} (behind : WalkLines maxDepth lines) :
      WalkLines maxDepth (.limit maxDepth :: lines)

def Node.dottedName? : Node → Option String
  | .member _ (.identifier name) false _ => some name
  | _ => none

/-- The conversion of a node that is an access by a name, in a walk down to `maxDepth`. -/
def Node.Site.conversion? (maxDepth : Nat) (site : Site) : Option Line :=
  if 0 < site.depth ∧ site.depth < maxDepth then site.node.dottedName?.map .conversion else none

/-- The flattening of a node that is a template without a tag, in a walk down to `maxDepth`. -/
def Node.Site.flattening? (maxDepth : Nat) : Site → Option Line
  | ⟨depth, parent, .templateLiteral quasis expressions⟩ =>
      if 0 < depth ∧ depth < maxDepth ∧ parent ≠ some .taggedTemplate then
        some (.flattening quasis.length expressions.length)
      else none
  | _ => none

/-- What a walk reports of the tree that it begins with, when it makes that many replacements. -/
structure WalkLog (rules : List Rule) (maxDepth : Nat) (root : Node) (replaced : Nat)
    (log : List Line) : Prop where
  sequence : WalkLines maxDepth log
  warnings : log.filter Line.isWarning =
    if ∃ site ∈ root.sites, maxDepth ≤ site.depth then [.limit maxDepth] else []
  conversions : log.filter Line.isConversion =
    if .memberAccess ∈ rules then root.sites.filterMap (Site.conversion? maxDepth) else []
  flattenings : log.filter Line.isFlattening =
    if .templateLiteral ∈ rules then root.postorderSites.filterMap (Site.flattening? maxDepth)
    else []
  replacements : log.countP Line.isFlattening = replaced

variable {rules : List Rule} {maxDepth depthLeft depth : Nat} {above : Option NodeKind}
  {parent : NodeKind} {root node : Node} {events : List Event} {lines others : List Line}

namespace WalkLines

theorem append (one : WalkLines maxDepth lines) (other : WalkLines maxDepth others) :
    WalkLines maxDepth (lines ++ others) := by
  induction one with
  | nil => exact other
  | conversion _ ih => exact .conversion ih
  | flattening _ ih => exact .flattening ih
  | limit _ ih => exact .limit ih

theorem map_flatMap {log : Node → List Event}
    (each : ∀ node, WalkLines maxDepth ((log node).map Event.line)) (nodes : List Node) :
    WalkLines maxDepth ((nodes.flatMap log).map Event.line) := by
  induction nodes with
  | nil => exact .nil
  | cons node nodes ih =>
      rw [List.flatMap_cons, List.map_append]
      exact (each node).append ih

theorem unrepeated (sequence : WalkLines maxDepth lines) (reached : Bool) :
    WalkLines maxDepth (unrepeated Line.isWarning reached lines) := by
  induction sequence generalizing reached with
  | nil => exact .nil
  | conversion _ ih => exact .conversion (ih reached)
  | flattening _ ih => exact .flattening (ih reached)
  | limit _ ih =>
      cases reached with
      | true => exact ih true
      | false => exact .limit (ih true)

theorem warnings_unrepeated (sequence : WalkLines maxDepth lines) (reached : Bool) :
    (EstreeLowering.unrepeated Line.isWarning reached lines).filter Line.isWarning =
      if lines.any Line.isWarning ∧ reached = false then [.limit maxDepth] else [] := by
  have conversion (key : String) : (Line.conversion key).isWarning = false := rfl
  have flattening (quasis expressions : Nat) :
      (Line.flattening quasis expressions).isWarning = false := rfl
  have replacement (rule : Rule) (before after : String) :
      (Line.replacement rule before after).isWarning = false := rfl
  have limit : (Line.limit maxDepth).isWarning = true := rfl
  induction sequence generalizing reached with
  | nil => simp [EstreeLowering.unrepeated]
  | conversion _ ih => simp [EstreeLowering.unrepeated, conversion, ih]
  | flattening _ ih => simp [EstreeLowering.unrepeated, flattening, replacement, ih]
  | limit _ ih => cases reached <;> simp [EstreeLowering.unrepeated, limit, ih]

end WalkLines

theorem walkLines_encountered (rules : List Rule) (maxDepth depthLeft : Nat)
    (above : Option NodeKind) (node : Node) :
    WalkLines maxDepth ((encountered rules maxDepth depthLeft above node).map Event.line) := by
  induction depthLeft generalizing above node with
  | zero => exact .limit .nil
  | succ depthLeft ih =>
      have onEntering : WalkLines maxDepth ((enteredLog rules above node).map Event.line) := by
        rcases enteredLog_cases rules above node with same | ⟨key, same⟩ <;> rw [same]
        · exact .nil
        · exact .conversion .nil
      have onLeaving : WalkLines maxDepth
          ((exitedLog rules above (walked rules depthLeft above node)).map Event.line) := by
        rcases exitedLog_cases rules above (walked rules depthLeft above node) with
          same | ⟨quasis, expressions, after, same⟩ <;> rw [same]
        · exact .nil
        · exact .flattening .nil
      rw [encountered, List.map_append, List.map_append]
      exact (onEntering.append (.map_flatMap (ih (some node.kind)) node.children)).append onLeaving

theorem any_isNotice_encountered (rules : List Rule) (maxDepth depthLeft : Nat)
    (above : Option NodeKind) (node : Node) :
    (encountered rules maxDepth depthLeft above node).any Event.isNotice = true ↔
      ¬ node.Within depthLeft := by
  induction depthLeft generalizing above node with
  | zero => exact iff_of_true rfl Node.not_within_zero
  | succ depthLeft ih =>
      rw [encountered, List.any_append, List.any_append, any_isNotice_enteredLog,
        any_isNotice_exitedLog, Bool.false_or, Bool.or_false, List.any_flatMap, List.any_eq_true,
        Node.within_succ_iff]
      simp only [ih, not_forall, exists_prop]

def Event.isConversion (event : Event) : Bool :=
  event.line.isConversion

def Event.isFlattening (event : Event) : Bool :=
  event.line.isFlattening

/-- The title tells a conversion from every other event. -/
theorem isConversion_iff {event : Event} :
    event.isConversion = true ↔ ∃ key, event = .memberConverted key := by
  cases event <;> simp [Event.isConversion, Line.isConversion, Event.line, Event.title]

theorem isFlattening_iff {event : Event} :
    event.isFlattening = true ↔
      ∃ quasis expressions, event = .templateFlattened quasis expressions := by
  cases event <;> simp [Event.isFlattening, Line.isFlattening, Event.line, Event.title]

theorem isConversion_of_isNotice {event : Event} (notice : event.isNotice = true) :
    event.isConversion = false := by
  rw [← Bool.not_eq_true, isConversion_iff]
  intro conversion
  obtain ⟨key, rfl⟩ := conversion
  cases notice

theorem isFlattening_of_isNotice {event : Event} (notice : event.isNotice = true) :
    event.isFlattening = false := by
  rw [← Bool.not_eq_true, isFlattening_iff]
  intro flattening
  obtain ⟨quasis, expressions, rfl⟩ := flattening
  cases notice

theorem filter_isConversion_enteredLog (rules : List Rule) (above : Option NodeKind) (node : Node) :
    (enteredLog rules above node).filter Event.isConversion = enteredLog rules above node := by
  rcases enteredLog_cases rules above node with same | ⟨key, same⟩ <;> rw [same]
  · rfl
  · simp [isConversion_iff]

theorem filter_isConversion_exitedLog (rules : List Rule) (above : Option NodeKind) (node : Node) :
    (exitedLog rules above node).filter Event.isConversion = [] := by
  rcases exitedLog_cases rules above node with same | ⟨quasis, expressions, after, same⟩ <;>
    rw [same]
  · rfl
  · simp [isConversion_iff]

theorem le_depth_of_mem_sitesFrom {site : Site} (member : site ∈ node.sitesFrom above depth) :
    depth ≤ site.depth := by
  obtain ⟨deeper, same, _⟩ := Node.mem_sitesFrom.mp member
  omega

theorem conversions_encountered (rules : List Rule) (maxDepth depthLeft depth : Nat)
    (above : Option NodeKind) (node : Node) :
    (encountered rules maxDepth depthLeft above node).filter Event.isConversion =
      (node.sitesFrom above depth).flatMap fun site =>
        if site.depth < depth + depthLeft then enteredLog rules site.parent site.node else [] := by
  induction depthLeft generalizing depth above node with
  | zero =>
      rw [encountered, List.filter_singleton, isConversion_of_isNotice rfl]
      symm
      apply List.flatMap_eq_nil_iff.mpr
      intro site member
      exact if_neg (Nat.not_lt.mpr (le_depth_of_mem_sitesFrom member))
  | succ depthLeft ih =>
      have limit : depth + (depthLeft + 1) = depth + 1 + depthLeft := by omega
      have here : depth < depth + 1 + depthLeft := by omega
      rw [encountered, List.filter_append, List.filter_append, filter_isConversion_enteredLog,
        filter_isConversion_exitedLog, List.append_nil, Node.sitesFrom_eq, List.flatMap_cons,
        List.flatMap_assoc, List.filter_flatMap, limit, if_pos here]
      simp only [ih (depth + 1)]

theorem dottedName?_of_keptBy (kept : KeptBy .memberAccess (some parent) node) :
    node.dottedName? = none := by
  fun_cases Node.dottedName? node with
  | case1 object name optional => exact absurd ⟨_, .access⟩ (kept parent rfl)
  | case2 => rfl

theorem lines_enteredLog (rules : List Rule) (parent : NodeKind) (node : Node) :
    (enteredLog rules (some parent) node).map Event.line =
      if .memberAccess ∈ rules then (node.dottedName?.map Line.conversion).toList else [] := by
  rw [enteredLog, apply_ite (List.map Event.line)]
  congr 1
  by_cases kept : KeptBy .memberAccess (some parent) node
  · rw [enter_of_keptBy kept, dottedName?_of_keptBy kept, log_keep, Option.map_none,
      Option.toList_none, List.map_nil]
  · obtain ⟨kind, result, _, rewrites⟩ := exists_rewrites_of_not_keptBy kept
    cases rewrites with
    | access =>
        rw [log_enter]
        rfl

/-- Where a rule reports at most one line of each site, the sites with nothing to report are left
out. -/
theorem lines_flatMap_sites {rule : Rule} {sites : List Site} {report : Site → List Event}
    {read : Site → Option Line}
    (each : ∀ site ∈ sites,
      (report site).map Event.line = if rule ∈ rules then (read site).toList else []) :
    (sites.flatMap report).map Event.line = if rule ∈ rules then sites.filterMap read else [] := by
  rw [List.map_flatMap, List.flatMap_congr each]
  split
  · rw [List.filterMap_eq_flatMap_toList]
  · simp

theorem conversions_root (rules : List Rule) (maxDepth : Nat) (root : Node) :
    ((encountered rules maxDepth maxDepth none root).filter Event.isConversion).map Event.line =
      if .memberAccess ∈ rules then root.sites.filterMap (Site.conversion? maxDepth) else [] := by
  rw [conversions_encountered rules maxDepth maxDepth 0, Nat.zero_add, ← Node.sites]
  apply lines_flatMap_sites
  intro site member
  have top := (Node.mem_sites.mp member).parent_eq_none_iff
  obtain ⟨depth, above, node⟩ := site
  cases above with
  | none =>
      obtain rfl : depth = 0 := top.mp rfl
      have kept : KeptBy .memberAccess none node := by simp [KeptBy]
      simp [enteredLog_of_keptBy kept, Site.conversion?]
  | some parent =>
      have below : 0 < depth :=
        Nat.pos_of_ne_zero fun same => Option.some_ne_none parent (top.mpr same)
      rw [apply_ite (List.map Event.line)]
      simp only [lines_enteredLog, Site.conversion?, below, true_and]
      split <;> simp

theorem filter_isFlattening_enteredLog (rules : List Rule) (above : Option NodeKind) (node : Node) :
    (enteredLog rules above node).filter Event.isFlattening = [] := by
  rcases enteredLog_cases rules above node with same | ⟨key, same⟩ <;> rw [same]
  · rfl
  · simp [isFlattening_iff]

theorem filter_isFlattening_template (untagged : parent ≠ .taggedTemplate)
    (quasis : List TemplateElement) (expressions : List Node) :
    (exitedLog rules (some parent) (.templateLiteral quasis expressions)).filter
        Event.isFlattening =
      if .templateLiteral ∈ rules then
        [.templateFlattened quasis.length expressions.length] else [] := by
  rw [exitedLog, log_leave untagged]
  split
  · simp [isFlattening_iff]
  · rfl

/-- What became of the substitutions does not show in what is reported of their template. -/
theorem filter_isFlattening_walked (rules : List Rule) (depthLeft : Nat)
    (above : Option NodeKind) (node : Node) :
    (exitedLog rules above (walked rules depthLeft above node)).filter Event.isFlattening =
      (exitedLog rules above node).filter Event.isFlattening := by
  by_cases kept : KeptBy .templateLiteral above node
  · have keptWalked := (keptBy_template_congr (kind_walked rules depthLeft above node)).mpr kept
    rw [exitedLog_of_keptBy kept, exitedLog_of_keptBy keptWalked]
  · obtain ⟨parent, quasis, expressions, rfl, untagged, rfl⟩ := exists_template_of_not_keptBy kept
    rw [walked_template, filter_isFlattening_template untagged,
      filter_isFlattening_template untagged, List.length_map]

theorem flattenings_encountered (rules : List Rule) (maxDepth depthLeft depth : Nat)
    (above : Option NodeKind) (node : Node) :
    (encountered rules maxDepth depthLeft above node).filter Event.isFlattening =
      (node.postorderSitesFrom above depth).flatMap fun site =>
        if site.depth < depth + depthLeft then
          (exitedLog rules site.parent site.node).filter Event.isFlattening
        else [] := by
  induction depthLeft generalizing depth above node with
  | zero =>
      rw [encountered, List.filter_singleton, isFlattening_of_isNotice rfl]
      symm
      apply List.flatMap_eq_nil_iff.mpr
      intro site member
      have listed := (Node.postorderSitesFrom_perm above depth node).mem_iff.mp member
      exact if_neg (Nat.not_lt.mpr (le_depth_of_mem_sitesFrom listed))
  | succ depthLeft ih =>
      have limit : depth + (depthLeft + 1) = depth + 1 + depthLeft := by omega
      have here : depth < depth + 1 + depthLeft := by omega
      rw [encountered, List.filter_append, List.filter_append, filter_isFlattening_enteredLog,
        filter_isFlattening_walked, List.nil_append, Node.postorderSitesFrom_eq,
        List.flatMap_append, List.flatMap_assoc, List.filter_flatMap, limit,
        List.flatMap_singleton, if_pos here]
      simp only [ih (depth + 1)]

theorem flattening?_of_keptBy (top : above = none → depth = 0)
    (kept : KeptBy .templateLiteral above node) :
    Site.flattening? maxDepth ⟨depth, above, node⟩ = none := by
  cases node with
  | templateLiteral quasis expressions =>
      refine if_neg fun flattened => ?_
      obtain ⟨below, _, untagged⟩ := flattened
      cases above with
      | none => exact absurd (top rfl) (Nat.ne_of_gt below)
      | some parent =>
          exact kept parent rfl ⟨_, .template fun same => untagged (congrArg some same)⟩
  | _ => rfl

theorem flattenings_root (rules : List Rule) (maxDepth : Nat) (root : Node) :
    ((encountered rules maxDepth maxDepth none root).filter Event.isFlattening).map Event.line =
      if .templateLiteral ∈ rules then
        root.postorderSites.filterMap (Site.flattening? maxDepth) else [] := by
  rw [flattenings_encountered rules maxDepth maxDepth 0, Nat.zero_add, ← Node.postorderSites]
  apply lines_flatMap_sites
  intro site member
  have listed := (Node.postorderSitesFrom_perm none 0 root).mem_iff.mp member
  have top := (Node.mem_sites.mp listed).parent_eq_none_iff
  obtain ⟨depth, above, node⟩ := site
  by_cases kept : KeptBy .templateLiteral above node
  · simp [exitedLog_of_keptBy kept, flattening?_of_keptBy top.mp kept]
  · obtain ⟨parent, quasis, expressions, rfl, untagged, rfl⟩ := exists_template_of_not_keptBy kept
    have below : 0 < depth :=
      Nat.pos_of_ne_zero fun same => Option.some_ne_none parent (top.mpr same)
    by_cases shallow : depth < maxDepth
    · simp only [shallow, if_true, filter_isFlattening_template untagged, Site.flattening?, below,
        untagged, ne_eq, Option.some.injEq, not_false_eq_true, and_self]
      rw [apply_ite (List.map Event.line)]
      rfl
    · simp [Site.flattening?, shallow]

theorem countP_isFlattening_exitedLog (rules : List Rule) (above : Option NodeKind) (node : Node) :
    (exitedLog rules above node).countP Event.isFlattening = replacements rules above node := by
  by_cases kept : KeptBy .templateLiteral above node
  · rw [exitedLog_of_keptBy kept, (exited_of_keptBy kept).2]
    rfl
  · obtain ⟨parent, quasis, expressions, rfl, untagged, rfl⟩ := exists_template_of_not_keptBy kept
    rw [List.countP_eq_length_filter, filter_isFlattening_template untagged]
    by_cases member : .templateLiteral ∈ rules
    · rw [if_pos member, (exited_template member untagged quasis expressions).2]
      rfl
    · simp [replacements, member]

theorem countP_isFlattening_encountered (rules : List Rule) (maxDepth depthLeft : Nat)
    (above : Option NodeKind) (node : Node) :
    (encountered rules maxDepth depthLeft above node).countP Event.isFlattening =
      (tallied rules depthLeft above node).replaced := by
  induction depthLeft generalizing above node with
  | zero =>
      have notice : (Event.depthExceeded maxDepth).isNotice = true := rfl
      simp [encountered, tallied, Tally.zero, isFlattening_of_isNotice notice]
  | succ depthLeft ih =>
      have silent : (enteredLog rules above node).countP Event.isFlattening = 0 := by
        rw [List.countP_eq_length_filter, filter_isFlattening_enteredLog, List.length_nil]
      rw [encountered, List.countP_append, List.countP_append, silent, Nat.zero_add,
        ← encountered_entered rules maxDepth depthLeft above, List.countP_flatMap,
        countP_isFlattening_exitedLog]
      simp only [tallied, Tally.add, Tally.replaced_sum, List.map_map, Function.comp_def, ih,
        kind_entered, Nat.zero_add]

theorem walk_log (nodup : rules.Nodup) (maxDepth : Nat) (root : Node) :
    let progress := (walk (convertingVisitors rules) maxDepth root).2
    WalkLog rules maxDepth root progress.tally.replaced
      (progress.events.toList.map Event.line) := by
  intro progress
  have tally : progress.tally = tallied rules maxDepth none root :=
    (visit_tally nodup maxDepth maxDepth none root .start).trans (Tally.zero_add _)
  have sequence := walkLines_encountered rules maxDepth maxDepth none root
  have lines : (unrepeated Event.isNotice false
      (encountered rules maxDepth maxDepth none root)).map Event.line = unrepeated Line.isWarning
        false ((encountered rules maxDepth maxDepth none root).map Event.line) :=
    map_unrepeated Line.isWarning Event.line false _
  rw [walk_events nodup, tally]
  refine ⟨lines ▸ sequence.unrepeated false, ?_, ?_, ?_, ?_⟩
  · have reached := any_isNotice_encountered rules maxDepth maxDepth none root
    rw [Node.within_iff_sites] at reached
    rw [lines, sequence.warnings_unrepeated, List.any_map]
    simp only [and_true]
    exact if_congr (reached.trans (by simp)) rfl rfl
  · rw [List.filter_map, ← conversions_root]
    exact congrArg _ (filter_unrepeated (fun _ => isConversion_of_isNotice) _ _)
  · rw [List.filter_map, ← flattenings_root]
    exact congrArg _ (filter_unrepeated (fun _ => isFlattening_of_isNotice) _ _)
  · rw [List.countP_map, ← countP_isFlattening_encountered rules maxDepth maxDepth none root,
      List.countP_eq_length_filter, List.countP_eq_length_filter]
    exact congrArg _ (filter_unrepeated (fun _ => isFlattening_of_isNotice) _ _)

/-- What a stage logs: that it begins, and then either that no rule takes part or what its walk
reports of the tree, with the counts at the end. -/
inductive StageLog (rules : List Rule) (maxDepth : Nat) (stage : Stage) (root : Node) :
    Tally → List Line → Prop
  | skipped (idle : (Schedule.ofRules rules).visitors stage = []) :
      StageLog rules maxDepth stage root .zero [.stage stage, .skipped]
  | finished {tally : Tally} {log : List Line}
      (active : (Schedule.ofRules rules).visitors stage ≠ [])
      (walked : WalkLog rules maxDepth root tally.replaced log) :
      StageLog rules maxDepth stage root tally (.stage stage :: (log ++ [.finished tally]))

/-- The stages of a run log one after the other, each of the tree that those before it left. -/
inductive RunLog (rules : List Rule) (maxDepth : Nat) :
    List Stage → Node → Tally → List Line → Prop
  | nil {root : Node} : RunLog rules maxDepth [] root .zero []
  | cons {stage : Stage} {stages : List Stage} {root : Node} {first others : Tally}
      {here behind : List Line} (logged : StageLog rules maxDepth stage root first here)
      (rest : RunLog rules maxDepth stages
        ((Pipeline.ofRules rules maxDepth).runStage stage root).1 others behind) :
      RunLog rules maxDepth (stage :: stages) root (first.add others) (here ++ behind)

theorem WalkLog.of_eraseDups {replaced : Nat}
    (walked : WalkLog rules.eraseDups maxDepth root replaced lines) :
    WalkLog rules maxDepth root replaced lines := by
  obtain ⟨sequence, warnings, conversions, flattenings, replacements⟩ := walked
  simp only [List.mem_eraseDups] at conversions flattenings
  exact ⟨sequence, warnings, conversions, flattenings, replacements⟩

theorem runStage_log (rules : List Rule) (maxDepth : Nat) (stage : Stage) (root : Node) :
    let report := ((Pipeline.ofRules rules maxDepth).runStage stage root).2
    StageLog rules maxDepth stage root report.tally (report.events.map Event.line) := by
  by_cases idle : (Schedule.ofRules rules).visitors stage = []
  · have skipped : ((Pipeline.ofRules rules maxDepth).runStage stage root).2 =
        ⟨.zero, [.stageStarted stage, .stageSkipped]⟩ := by
      simp only [Pipeline.runStage, Pipeline.ofRules, idle, List.isEmpty_nil, if_true]
    rw [skipped]
    exact .skipped idle
  · obtain rfl : stage = .converting := by
      by_contra another
      exact idle (Pipeline.visitors_of_ne_converting rules maxDepth another)
    have walked := walk_log (Schedule.nodup_eraseDups rules) maxDepth root
    have visitors := Pipeline.visitors_converting rules maxDepth
    have active : (convertingVisitors rules.eraseDups).isEmpty = false :=
      List.isEmpty_eq_false_iff.mpr (visitors ▸ idle)
    simp only [Pipeline.runStage, visitors, active, Bool.false_eq_true, if_false,
      List.map_cons, List.map_append, List.map_nil]
    exact .finished idle walked.of_eraseDups

theorem runLog_runStages (rules : List Rule) (maxDepth : Nat) (stages : List Stage) (root : Node) :
    let report := ((Pipeline.ofRules rules maxDepth).runStages stages root).2
    RunLog rules maxDepth stages root report.tally (report.events.map Event.line) := by
  induction stages generalizing root with
  | nil => exact .nil
  | cons stage stages ih =>
      simp only [Pipeline.runStages, Report.append, List.map_append]
      exact .cons (runStage_log rules maxDepth stage root) (ih _)

theorem WalkLines.filter_isSpan (sequence : WalkLines maxDepth lines) :
    lines.filter Line.isSpan = [] := by
  induction sequence with
  | nil => rfl
  | conversion _ ih | flattening _ ih | limit _ ih => exact ih

theorem WalkLines.filter_isFinished (sequence : WalkLines maxDepth lines) :
    lines.filter Line.isFinished = [] := by
  induction sequence with
  | nil => rfl
  | conversion _ ih | flattening _ ih | limit _ ih =>
      simpa [Line.isFinished, Line.conversion, Line.flattening, Line.replacement, Line.limit]
        using ih

variable {stage : Stage} {stages : List Stage} {tally : Tally}

theorem StageLog.spans (logged : StageLog rules maxDepth stage root tally lines) :
    lines.filter Line.isSpan = [.stage stage] := by
  cases logged with
  | skipped => rfl
  | finished _ walked =>
      have span : (Line.stage stage).isSpan = true := rfl
      rw [List.filter_cons_of_pos span, List.filter_append, walked.sequence.filter_isSpan]
      rfl

/-- A stage whose walk was not skipped says so once, with its counts, at the end. -/
theorem StageLog.finished_lines (logged : StageLog rules maxDepth stage root tally lines) :
    lines.filter Line.isFinished = [] ∧ tally = .zero ∨
      lines.filter Line.isFinished = [.finished tally] := by
  cases logged with
  | skipped => exact .inl ⟨by simp [Line.isFinished, Line.stage, Line.skipped], rfl⟩
  | finished _ walked =>
      refine .inr ?_
      rw [List.filter_cons, List.filter_append, walked.sequence.filter_isFinished]
      simp [Line.isFinished, Line.stage, Line.finished]

theorem RunLog.spans (logged : RunLog rules maxDepth stages root tally lines) :
    lines.filter Line.isSpan = stages.map Line.stage := by
  induction logged with
  | nil => rfl
  | cons here _ ih =>
      rw [List.filter_append, here.spans, ih]
      rfl

theorem RunLog.counts (logged : RunLog rules maxDepth stages root tally lines) :
    ((lines.filter Line.isFinished).map (Line.number "visited")).sum = tally.visited ∧
      ((lines.filter Line.isFinished).map (Line.number "replaced")).sum = tally.replaced := by
  induction logged with
  | nil => exact ⟨rfl, rfl⟩
  | cons here _ ih =>
      obtain ⟨visited, replaced⟩ := ih
      rw [List.filter_append, List.map_append, List.map_append, List.sum_append, List.sum_append,
        visited, replaced]
      rcases here.finished_lines with ⟨silent, rfl⟩ | said
      · simp [silent, Tally.add, Tally.zero]
      · simp [said, Tally.add, Line.number_visited, Line.number_replaced]

/-- A run logs each stage in turn: a span that names the stage, and in it either that the stage is
skipped or what its walk did and counted. The counts of the stages make up those of the run. -/
theorem runStages_log (rules : List Rule) (maxDepth : Nat) (stages : List Stage) (root : Node) :
    let report := ((Pipeline.ofRules rules maxDepth).runStages stages root).2
    let lines := report.events.map Event.line
    RunLog rules maxDepth stages root report.tally lines ∧
      lines.filter Line.isSpan = stages.map Line.stage ∧
      ((lines.filter Line.isFinished).map (Line.number "visited")).sum = report.tally.visited ∧
      ((lines.filter Line.isFinished).map (Line.number "replaced")).sum =
        report.tally.replaced := by
  intro report lines
  have logged : RunLog rules maxDepth stages root report.tally lines :=
    runLog_runStages rules maxDepth stages root
  exact ⟨logged, logged.spans, logged.counts⟩

/-- Both names in the access stand at the limit, which is reported once. -/
example :
    let root := Node.expressionStatement
      (.template ["a", ""] [.access (.identifier "o") (.identifier "k") false])
    ((Pipeline.ofRules Rule.all 3).runStages [.converting, .finalizing] root).2.events =
      [.stageStarted .converting, .memberConverted "k", .depthExceeded 3, .templateFlattened 2 1,
        .nodeReplaced .templateLiteral "TemplateLiteral" "BinaryExpression", .stageFinished 3 1,
        .stageStarted .finalizing, .stageSkipped] := rfl

end EstreeLowering
