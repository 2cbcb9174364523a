import EstreeLowering.Node.Build
import EstreeLowering.Walk.Hook

namespace EstreeLowering.Template

/-- Segments, as string literals, and substitutions in source order. A substitution without a
segment before it is dropped. -/
def interleave : List TemplateElement → List Node → List Node
  | [], _ => []
  | quasi :: quasis, expression :: expressions =>
      .stringLiteral quasi.text :: expression :: interleave quasis expressions
  | quasi :: quasis, [] => .stringLiteral quasi.text :: interleave quasis []

def isEmptyString (node : Node) : Bool :=
  node.stringLiteral? == some ""

/-- The operands of the chain without the one that may have to stand first. -/
def operands (quasis : List TemplateElement) (expressions : List Node) : List Node :=
  (interleave quasis expressions).filter fun node => !isEmptyString node

/-- Addition groups to the left, so a string among the first two operands makes every addition a
concatenation. -/
def withLeadingString (nodes : List Node) : List Node :=
  if (nodes.take 2).any Node.isStringLiteral then nodes else .stringLiteral "" :: nodes

/-- The nodes added up from the left. -/
def sum : List Node → Node
  | [] => .stringLiteral ""
  | first :: rest => rest.foldl (.binary "+") first

/-- The chain of additions for a template with those parts: its segments and substitutions in their
order, without empty strings. -/
def flatten (quasis : List TemplateElement) (expressions : List Node) : Node :=
  sum (withLeadingString (operands quasis expressions))

/-- Replaces a template, except at the root and under a tag, which takes the template itself. -/
def leave : Hook := fun node parent =>
  match parent, node with
  | none, _ | some .taggedTemplate, _ => .keep node
  | some _, .templateLiteral quasis expressions =>
      ⟨.templateLiteral [] [], some (flatten quasis expressions),
        [.templateFlattened quasis.length expressions.length]⟩
  | some _, _ => .keep node

end EstreeLowering.Template
