import EstreeLowering.Json.Reader
import EstreeLowering.Json.Record
import EstreeLowering.Node.Basic

/-!
Trees from JSON.

`layer` reads one node, given a reader for the nodes in it, and `ofJson?` ties the knot. A value is
first read as its tag asks for, and if that fails for whatever reason, as a node of an undedicated
kind. The second attempt knows the dedicated kinds only by their names, of which it accepts none.
-/

namespace EstreeLowering

namespace VariableKind

def ofName? (name : String) : Option VariableKind :=
  [varKind, letKind, constKind].find? fun kind => kind.name == name

/-- The name, or an object whose only key is the name and that says nothing about it. -/
def ofJson? : Json → Option VariableKind
  | .string name => ofName? name
  | .object [(name, .null)] => ofName? name
  | .object [(name, .object [])] => ofName? name
  | _ => none

end VariableKind

/-- Every number is read as a double-precision number. -/
def LiteralValue.ofJson : Json → LiteralValue
  | .null => .null
  | .boolean value => .boolean value
  | .number (.integer value _) => .number (.ofInt value)
  | .number (.real value) => .number (.finite value)
  | .string value => .string value
  | value => .raw value.merged

def RegexLiteral.ofJson? (value : Json) : Option RegexLiteral := do
  match ← Json.recordFields ["pattern", "flags"] value with
  | [some pattern, some flags] => return ⟨← pattern.text?, ← flags.text?⟩
  | _ => none

/-- The `type` of a segment is not looked at. -/
def TemplateElement.ofJson? (value : Json) : Option TemplateElement := do
  match ← Json.recordFields ["value", "tail"] value with
  | [some texts, tail] =>
      match ← Json.recordFields ["raw", "cooked"] texts with
      | [some raw, cooked] =>
          return ⟨← raw.text?, ← Json.optionalText? cooked, ← Json.flagOrOff? tail⟩
      | _ => none
  | _ => none

/-- The tags of the forms of nodes, in the order in which the forms are declared. -/
def Node.tags : List (String × NodeKind) :=
  [("Program", .program), ("ExpressionStatement", .expressionStatement),
    ("BlockStatement", .blockStatement), ("ReturnStatement", .returnStatement),
    ("VariableDeclaration", .variableDeclaration), ("VariableDeclarator", .variableDeclarator),
    ("Identifier", .identifier), ("PrivateIdentifier", .privateIdentifier),
    ("Literal", .literal), ("TemplateLiteral", .templateLiteral),
    ("TaggedTemplateExpression", .taggedTemplate), ("MemberExpression", .member),
    ("BinaryExpression", .binary), ("AssignmentExpression", .assignment),
    ("CallExpression", .call), ("ArrayExpression", .array),
    ("ConditionalExpression", .conditional)]

/-- The dedicated kind that a `type` stands for, as a tag or as the index of one. -/
def NodeKind.ofTag? : Json → Option NodeKind
  | .string tag => Node.tags.lookup tag
  | .number (.integer index _) =>
      if 0 ≤ index then Node.tags[index.toNat]?.map Prod.snd else none
  | _ => none

/-- The node of a dedicated kind with those values of its fields. -/
def Node.ofFields? (read : Json → Option Node) :
    NodeKind → List (Option Json) → Option Node
  | .program, [some (.array body), sourceType] =>
      return .program (← body.mapM read) (← Json.optionalText? sourceType)
  | .expressionStatement, [some expression] => return .expressionStatement (← read expression)
  | .blockStatement, [some (.array body)] => return .blockStatement (← body.mapM read)
  | .returnStatement, [argument] => return .returnStatement (← Json.optional? read argument)
  | .variableDeclaration, [some (.array declarations), some kind] =>
      return .variableDeclaration (← declarations.mapM read) (← VariableKind.ofJson? kind)
  | .variableDeclarator, [some id, init] =>
      return .variableDeclarator (← read id) (← Json.optional? read init)
  | .identifier, [some name] => return .identifier (← name.text?)
  | .privateIdentifier, [some name] => return .privateIdentifier (← name.text?)
  | .literal, [some value, raw, regex, bigint] =>
      return .literal (.ofJson value) (← Json.optionalText? raw)
        (← Json.optional? RegexLiteral.ofJson? regex) (← Json.optionalText? bigint)
  | .templateLiteral, [some (.array quasis), some (.array expressions)] =>
      return .templateLiteral (← quasis.mapM TemplateElement.ofJson?) (← expressions.mapM read)
  | .taggedTemplate, [some tag, some quasi] => return .taggedTemplate (← read tag) (← read quasi)
  | .member, [some object, some property, some computed, optional] =>
      return .member (← read object) (← read property) (← computed.flag?)
        (← Json.flagOrOff? optional)
  | .binary, [some operator, some left, some right] =>
      return .binary (← operator.text?) (← read left) (← read right)
  | .assignment, [some operator, some left, some right] =>
      return .assignment (← operator.text?) (← read left) (← read right)
  | .call, [some callee, some (.array arguments), optional] =>
      return .call (← read callee) (← arguments.mapM read) (← Json.flagOrOff? optional)
  | .array, [some (.array elements)] => return .array (← Json.items? read elements)
  | .conditional, [some test, some consequent, some alternate] =>
      return .conditional (← read test) (← read consequent) (← read alternate)
  | _, _ => none

/-- An object with a string as its `type`. -/
def Json.isNodeObject (value : Json) : Bool :=
  match value.get? "type" with
  | some (.string _) => true
  | _ => false

/-- Items that are such objects, at least one of them, and otherwise only `null`. -/
def Json.areNodes (items : List Json) : Bool :=
  items.any isNodeObject && items.all fun item => item.isNull || item.isNodeObject

/-- A field of an undedicated kind. What looks like a node or a list of nodes has to be one. -/
def Field.ofJson? (read : Json → Option Node) : Json → Option Field
  | .array items =>
      if Json.areNodes items then (Json.items? read items).map .nodes
      else some (.value (.array items))
  | other => if other.isNodeObject then (read other).map .node else some (.value other)

/-- The node of an undedicated kind with those entries. A dedicated kind that comes this far did not
match its fields. -/
def Node.otherOf? (read : Json → Option Node) (entries : List (String × Json)) : Option Node := do
  let fields ← (entries.filter (·.1 != "type")).mapM fun (key, value) =>
    (Field.ofJson? read value).map (key, ·)
  match entries.lookup "type" with
  | some (.string typeName) =>
      if (NodeKind.ofName? typeName).isSome then none else return .other typeName fields
  | _ => none

/-- The dedicated kind of an object, if it has one `type` and that stands for a kind. -/
def soleKind? (entries : List (String × Json)) : Option NodeKind :=
  match entries.filter (·.1 == "type") with
  | [entry] => NodeKind.ofTag? entry.2
  | _ => none

/-- The first attempt at a node: its tag says what its fields are. An array gives the tag and then
the fields in order. -/
def Node.tagged? (read : Json → Option Node) : Json → Option Node
  | .object entries => do
      let kind ← soleKind? entries
      ofFields? read kind (← Json.namedFields kind.fieldNames entries)
  | .array (tag :: items) => do
      let kind ← NodeKind.ofTag? tag
      ofFields? read kind (← Json.listedFields kind.fieldNames items)
  | _ => none

/-- The second attempt. The repeated keys of every object are merged before anything is looked
at. -/
def Node.untagged? (read : Json → Option Node) : Json → Option Node
  | .object entries => otherOf? read (Json.mergeKeys (Json.mergedEntries entries))
  | _ => none

/-- Reads a node, given a reader for the nodes in it. -/
def Node.layer (read : Json → Option Node) (value : Json) : Option Node :=
  tagged? read value <|> untagged? read value

/-- Reads a tree from a value of at most the given height; merging makes no value higher. -/
def Node.ofJsonWithin? : Nat → Json → Option Node
  | 0, _ => none
  | height + 1, value => layer (ofJsonWithin? height) value

/-- The tree that a value describes. -/
def Node.ofJson? (value : Json) : Option Node :=
  ofJsonWithin? value.height value

/-- The tree that a text describes. The value is read as a whole before it is looked at, and only
then anything behind it. -/
def Node.ofText (text : String) : Except Fault Node :=
  match Json.ofTokens (Json.lex text) with
  | .error fault => .error fault
  | .ok (value, rest) =>
      match ofJson? value with
      | none => .error .wrongShape
      | some node => if rest.isEmpty then .ok node else .error .malformed

end EstreeLowering
