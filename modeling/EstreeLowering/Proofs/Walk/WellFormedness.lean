import EstreeLowering.Proofs.Node.Acceptance
import EstreeLowering.Proofs.Node.Reading
import EstreeLowering.Proofs.Walk.RewritePreorder

namespace EstreeLowering

theorem wellFormedTop_stringLiteral {node : Node} (isString : node.isStringLiteral = true) :
    node.WellFormedTop := by
  cases node with
  | literal value =>
      cases value with
      | string text => trivial
      | _ => cases isString
  | _ => cases isString

theorem rewritePreorder_wellFormed :
    RewritePreorder fun before after => before.WellFormed → after.WellFormed :=
  rewritePreorder_of_everywhere Node.wellFormed_iff wellFormedTop_stringLiteral
    (fun _ _ => trivial) (fun _ _ _ => trivial) fun change _ top => top.mapChildren change

/-- What is read is well-formed, a run keeps it so, and therefore what is written afterwards, with
or without blanks at its end, is read as the tree that was written. -/
theorem wellFormed_throughout :
    (∀ text origin tree, Node.ofNamedText text origin = .ok tree → tree.WellFormed) ∧
      (∀ rules maxDepth stages (root : Node), root.WellFormed →
        ((Pipeline.ofRules rules maxDepth).runStages stages root).1.WellFormed) ∧
      ∀ (settings : Settings) text origin tree, Node.ofNamedText text origin = .ok tree →
        let result := (settings.transform tree).1
        result.toJson.height ≤ Json.maxNesting →
          ∀ layout ending again, (∀ c ∈ ending.toList, Json.isBlank c = true) →
            Node.ofNamedText (result.render layout ++ ending) again = .ok result := by
  have run rules maxDepth stages (root : Node) (wellFormed : root.WellFormed) :
      ((Pipeline.ofRules rules maxDepth).runStages stages root).1.WellFormed :=
    rewritePreorder_wellFormed.runStages rules maxDepth stages root wellFormed
  refine ⟨fun _ _ _ => wellFormed_ofNamedText, run, ?_⟩
  intro settings text origin tree accepted result shallow layout ending again blank
  have wellFormed : result.WellFormed := run _ _ _ tree (wellFormed_ofNamedText accepted)
  rw [Node.ofNamedText, ofText_render wellFormed shallow layout blank]
  rfl

/-- A key given twice, a hole, and nodes and segments given as lists. -/
def looseChunk : Json :=
  .object
    [("range", .null), ("type", .string "Chunk"),
      ("body", .array [.null, .object
        [("expressions", .array [.array [.string "Identifier", .string "x"]]),
          ("type", .string "TemplateLiteral"),
          ("quasis", .array [.array [.array [.string "a"]]])]]),
      ("range", .array [.boolean true])]

/-- A chunk with that node behind a hole. -/
def chunkWith (node : Node) : Node :=
  .other "Chunk" [("range", .value (.array [.boolean true])), ("body", .nodes [none, some node])]

theorem wellFormed_throughout_looseChunk :
    let read := chunkWith (.templateLiteral [⟨"a", none, false⟩] [.identifier "x"])
    let result := chunkWith (.binary "+" (.stringLiteral "") (.identifier "x"))
    Node.ofNamedText (looseChunk.render .compact) "in.json" = .ok read ∧ read.WellFormed ∧
      (Settings.transform ⟨[.preparing, .converting], [], 3⟩ read).1 = result ∧
      result.WellFormed ∧ result.toJson.height ≤ Json.maxNesting ∧
      Node.ofNamedText (result.render .pretty ++ "\n") "out.json" = .ok result := by
  intro read result
  have value : Json.ofTokens (Json.lex (looseChunk.render .compact ++ "")) = .ok (looseChunk, []) :=
    Json.ofTokens_render (by decide) .compact (by simp)
  rw [String.append_empty] at value
  have accepted : Node.ofNamedText (looseChunk.render .compact) "in.json" = .ok read := by
    simp only [Node.ofNamedText, Node.ofText, value]
    rfl
  have transformed : (Settings.transform ⟨[.preparing, .converting], [], 3⟩ read).1 = result := rfl
  obtain ⟨fromText, throughRun, reread⟩ := wellFormed_throughout
  have wellFormed := fromText _ _ _ accepted
  have kept := throughRun Rule.all 3 [.preparing, .converting] read wellFormed
  have shallow : result.toJson.height ≤ Json.maxNesting := by decide
  have again := reread _ _ _ read accepted (transformed ▸ shallow) .pretty "\n" "out.json"
    (by simp [Json.isBlank])
  exact ⟨accepted, wellFormed, transformed, kept, shallow, transformed ▸ again⟩

end EstreeLowering
