import EstreeLowering.Json.Record
import EstreeLowering.Json.Writer
import EstreeLowering.Node.Basic

namespace EstreeLowering

/-- Numbers without a JSON form are written as `null`. -/
def Binary64.toJson : Binary64 → Json
  | .finite x => .number (.real x)
  | _ => .null

def LiteralValue.toJson : LiteralValue → Json
  | .null => .null
  | .boolean value => .boolean value
  | .number value => value.toJson
  | .string value => .string value
  | .raw value => value

def RegexLiteral.toJson (regex : RegexLiteral) : Json :=
  .object [("pattern", .string regex.pattern), ("flags", .string regex.flags)]

def TemplateElement.toJson (element : TemplateElement) : Json :=
  .object [
    ("type", .string "TemplateElement"),
    ("value", .object [("raw", .string element.raw), ("cooked", Json.textOrNull element.cooked)]),
    ("tail", .boolean element.tail)]

/-- The JSON form of a node of a dedicated kind whose fields are given in their fixed order, none
for one that is left out. -/
def NodeKind.encode (kind : NodeKind) (values : List (Option Json)) : Json :=
  .object (("type", .string kind.name) :: Json.presentEntries kind.fieldNames values)

mutual

def Node.toJson : Node → Json
  | .program body sourceType =>
      NodeKind.program.encode [some (.array (nodesToJson body)), sourceType.map .string]
  | .expressionStatement expression =>
      NodeKind.expressionStatement.encode [some expression.toJson]
  | .blockStatement body => NodeKind.blockStatement.encode [some (.array (nodesToJson body))]
  | .returnStatement argument => NodeKind.returnStatement.encode [some (optionToJson argument)]
  | .variableDeclaration declarations kind =>
      NodeKind.variableDeclaration.encode
        [some (.array (nodesToJson declarations)), some (.string kind.name)]
  | .variableDeclarator id init =>
      NodeKind.variableDeclarator.encode [some id.toJson, some (optionToJson init)]
  | .identifier name => NodeKind.identifier.encode [some (.string name)]
  | .privateIdentifier name => NodeKind.privateIdentifier.encode [some (.string name)]
  | .literal value raw regex bigint =>
      NodeKind.literal.encode
        [some value.toJson, raw.map .string, regex.map RegexLiteral.toJson, bigint.map .string]
  | .templateLiteral quasis expressions =>
      NodeKind.templateLiteral.encode
        [some (.array (quasis.map TemplateElement.toJson)), some (.array (nodesToJson expressions))]
  | .taggedTemplate tag quasi =>
      NodeKind.taggedTemplate.encode [some tag.toJson, some quasi.toJson]
  | .member object property computed optional =>
      NodeKind.member.encode
        [some object.toJson, some property.toJson, some (.boolean computed),
          some (.boolean optional)]
  | .binary operator left right =>
      NodeKind.binary.encode [some (.string operator), some left.toJson, some right.toJson]
  | .assignment operator left right =>
      NodeKind.assignment.encode [some (.string operator), some left.toJson, some right.toJson]
  | .call callee arguments optional =>
      NodeKind.call.encode
        [some callee.toJson, some (.array (nodesToJson arguments)), some (.boolean optional)]
  | .array elements => NodeKind.array.encode [some (.array (itemsToJson elements))]
  | .conditional test consequent alternate =>
      NodeKind.conditional.encode [some test.toJson, some consequent.toJson, some alternate.toJson]
  | .other typeName fields => .object (("type", .string typeName) :: fieldsToJson fields)

def Field.toJson : Field → Json
  | .node node => node.toJson
  | .nodes items => .array (itemsToJson items)
  | .value value => value

def optionToJson : Option Node → Json
  | some node => node.toJson
  | none => .null

def nodesToJson : List Node → List Json
  | [] => []
  | node :: nodes => node.toJson :: nodesToJson nodes

/-- Holes are written as `null`. -/
def itemsToJson : List (Option Node) → List Json
  | [] => []
  | item :: items => optionToJson item :: itemsToJson items

def fieldsToJson : List (String × Field) → List (String × Json)
  | [] => []
  | (key, field) :: fields => (key, field.toJson) :: fieldsToJson fields

end

def Node.render (node : Node) (layout : Json.Layout) : String :=
  node.toJson.render layout

end EstreeLowering
