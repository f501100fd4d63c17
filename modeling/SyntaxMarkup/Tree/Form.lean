import SyntaxMarkup.Tree.NodeObject

namespace SyntaxMarkup

structure Form where
  kind : Except TreeError Kind
  children : List (String × Arity)
  /-- Whether a fault in the children is found before one in `kind`. -/
  childrenFirst : Bool := false

namespace NodeObject

/-- Any source type but `script` is `module`. -/
def sourceType (object : NodeObject) : SourceType :=
  if object.text? "sourceType" = some "script" then .script else .module

/-- The source of a regular expression, if there is an object in its place. -/
def regex? (object : NodeObject) : Except TreeError (Option RegexLiteral) :=
  match object.field? "regex" with
  | some (.object regex) =>
    match (regex.lookup "pattern").bind Json.asString? with
    | some pattern =>
      .ok (some ⟨pattern, ((regex.lookup "flags").bind Json.asString?).getD ""⟩)
    | none => .error (object.invalid "regex" .regex)
  | _ => .ok none

/-- The text of a literal: `raw`, else the JSON text of its value. -/
def raw (object : NodeObject) : Except TreeError String :=
  match object.text? "raw", object.members.lookup "value" with
  | some raw, _ => .ok raw
  | none, some value => .ok value.compact
  | none, none => .error (object.missing "raw")

def literal (object : NodeObject) : Except TreeError Kind := do
  let regex ← object.regex?
  let raw ← object.raw
  return .literal raw regex (object.text? "bigint")

def templateElement (object : NodeObject) : Except TreeError Kind := do
  let value ← object.require "value"
  match (value.member? "raw").bind Json.asString? with
  | some raw =>
    let cooked := (value.member? "cooked").bind Json.asString?
    return .templateElement raw cooked (object.flag "tail")
  | none => throw (object.invalid "value" .template)

def propertyKind (object : NodeObject) : Except TreeError PropertyKind :=
  match object.field? "kind" with
  | some _ => object.word "kind" .propertyKind
  | none => .ok .init

def positionFields : List String := ["loc", "range", "start", "end"]

/-- How a value in a node of unknown type holds children: as a node, or as a list of nodes and
nulls that is not without nodes. -/
def arity? (value : Json) : Option Arity :=
  if value.isNode then some .one
  else
    match value with
    | .array items =>
      if items.any Json.isNode && items.all fun item => item.isNull || item.isNode then
        some .sparse
      else none
    | _ => none

def unknownChildren (object : NodeObject) : List (String × Arity) :=
  object.members.filterMap fun (name, value) =>
    if name = "type" ∨ name ∈ positionFields then none
    else (arity? value).map (name, ·)

/-- The form of the object by its type. -/
def form (object : NodeObject) : Form :=
  let leaf (kind : Except TreeError Kind) : Form := ⟨kind, [], false⟩
  let branch (kind : Kind) (children : List (String × Arity)) : Form := ⟨.ok kind, children, false⟩
  match object.typeName with
  | "Program" => branch (.program object.sourceType) [("body", .many)]
  | "Identifier" => leaf (.identifier <$> object.text "name")
  | "PrivateIdentifier" => leaf (.privateIdentifier <$> object.text "name")
  | "Literal" => leaf object.literal
  | "ExpressionStatement" =>
    branch (.expressionStatement (object.text? "directive")) [("expression", .one)]
  | "BlockStatement" => branch .blockStatement [("body", .many)]
  | "StaticBlock" => branch .staticBlock [("body", .many)]
  | "EmptyStatement" => branch .emptyStatement []
  | "DebuggerStatement" => branch .debuggerStatement []
  | "WithStatement" => branch .withStatement [("object", .one), ("body", .one)]
  | "ReturnStatement" => branch .returnStatement [("argument", .maybe)]
  | "LabeledStatement" => branch .labeledStatement [("label", .one), ("body", .one)]
  | "BreakStatement" => branch .breakStatement [("label", .maybe)]
  | "ContinueStatement" => branch .continueStatement [("label", .maybe)]
  | "IfStatement" =>
    branch .ifStatement [("test", .one), ("consequent", .one), ("alternate", .maybe)]
  | "SwitchStatement" => branch .switchStatement [("discriminant", .one), ("cases", .many)]
  | "SwitchCase" => branch .switchCase [("test", .maybe), ("consequent", .many)]
  | "ThrowStatement" => branch .throwStatement [("argument", .one)]
  | "TryStatement" =>
    branch .tryStatement [("block", .one), ("handler", .maybe), ("finalizer", .maybe)]
  | "CatchClause" => branch .catchClause [("param", .maybe), ("body", .one)]
  | "WhileStatement" => branch .whileStatement [("test", .one), ("body", .one)]
  | "DoWhileStatement" => branch .doWhileStatement [("body", .one), ("test", .one)]
  | "ForStatement" =>
    branch .forStatement [("init", .maybe), ("test", .maybe), ("update", .maybe), ("body", .one)]
  | "ForInStatement" => branch .forInStatement [("left", .one), ("right", .one), ("body", .one)]
  | "ForOfStatement" =>
    branch (.forOfStatement (object.flag "await"))
      [("left", .one), ("right", .one), ("body", .one)]
  | "FunctionDeclaration" =>
    branch (.functionDeclaration (object.flag "async") (object.flag "generator"))
      [("id", .maybe), ("params", .many), ("body", .one)]
  | "VariableDeclaration" =>
    { kind := .variableDeclaration <$> object.word "kind" .variableKind
      children := [("declarations", .many)] }
  | "VariableDeclarator" => branch .variableDeclarator [("id", .one), ("init", .maybe)]
  | "ClassDeclaration" =>
    branch .classDeclaration [("id", .maybe), ("superClass", .maybe), ("body", .one)]
  | "ClassBody" => branch .classBody [("body", .many)]
  | "MethodDefinition" =>
    { kind := do
        let kind ← object.word "kind" .methodKind
        return .methodDefinition kind (object.flag "computed") (object.flag "static")
      children := [("key", .one), ("value", .one)]
      childrenFirst := true }
  | "PropertyDefinition" =>
    branch (.propertyDefinition (object.flag "computed") (object.flag "static"))
      [("key", .one), ("value", .maybe)]
  | "ThisExpression" => branch .thisExpression []
  | "Super" => branch .super []
  | "ArrayExpression" => branch .arrayExpression [("elements", .sparse)]
  | "ObjectExpression" => branch .objectExpression [("properties", .many)]
  | "Property" =>
    { kind := do
        let kind ← object.propertyKind
        return .property kind (object.flag "method") (object.flag "shorthand")
          (object.flag "computed")
      children := [("key", .one), ("value", .one)]
      childrenFirst := true }
  | "FunctionExpression" =>
    branch (.functionExpression (object.flag "async") (object.flag "generator"))
      [("id", .maybe), ("params", .many), ("body", .one)]
  | "ArrowFunctionExpression" =>
    branch (.arrowFunctionExpression (object.flag "async")) [("params", .many), ("body", .one)]
  | "ClassExpression" =>
    branch .classExpression [("id", .maybe), ("superClass", .maybe), ("body", .one)]
  | "UnaryExpression" =>
    { kind := .unaryExpression <$> object.word "operator" .unaryOperator
      children := [("argument", .one)] }
  | "UpdateExpression" =>
    { kind := do
        let operator ← object.word "operator" .updateOperator
        return .updateExpression operator (object.flag "prefix")
      children := [("argument", .one)] }
  | "BinaryExpression" =>
    { kind := .binaryExpression <$> object.word "operator" .binaryOperator
      children := [("left", .one), ("right", .one)] }
  | "LogicalExpression" =>
    { kind := .logicalExpression <$> object.word "operator" .logicalOperator
      children := [("left", .one), ("right", .one)] }
  | "AssignmentExpression" =>
    { kind := .assignmentExpression <$> object.word "operator" .assignmentOperator
      children := [("left", .one), ("right", .one)] }
  | "MemberExpression" =>
    branch (.memberExpression (object.flag "computed") (object.flag "optional"))
      [("object", .one), ("property", .one)]
  | "ConditionalExpression" =>
    branch .conditionalExpression [("test", .one), ("consequent", .one), ("alternate", .one)]
  | "CallExpression" =>
    branch (.callExpression (object.flag "optional")) [("callee", .one), ("arguments", .many)]
  | "NewExpression" => branch .newExpression [("callee", .one), ("arguments", .many)]
  | "SequenceExpression" => branch .sequenceExpression [("expressions", .many)]
  | "YieldExpression" =>
    branch (.yieldExpression (object.flag "delegate")) [("argument", .maybe)]
  | "AwaitExpression" => branch .awaitExpression [("argument", .one)]
  | "TemplateLiteral" => branch .templateLiteral [("quasis", .many), ("expressions", .many)]
  | "TaggedTemplateExpression" =>
    branch .taggedTemplateExpression [("tag", .one), ("quasi", .one)]
  | "TemplateElement" => leaf object.templateElement
  | "MetaProperty" => branch .metaProperty [("meta", .one), ("property", .one)]
  | "ImportExpression" => branch .importExpression [("source", .one)]
  | "ChainExpression" => branch .chainExpression [("expression", .one)]
  | "ParenthesizedExpression" => branch .parenthesizedExpression [("expression", .one)]
  | "SpreadElement" => branch .spreadElement [("argument", .one)]
  | "ObjectPattern" => branch .objectPattern [("properties", .many)]
  | "ArrayPattern" => branch .arrayPattern [("elements", .sparse)]
  | "RestElement" => branch .restElement [("argument", .one)]
  | "AssignmentPattern" => branch .assignmentPattern [("left", .one), ("right", .one)]
  | "ImportDeclaration" => branch .importDeclaration [("specifiers", .many), ("source", .one)]
  | "ImportSpecifier" => branch .importSpecifier [("imported", .one), ("local", .one)]
  | "ImportDefaultSpecifier" => branch .importDefaultSpecifier [("local", .one)]
  | "ImportNamespaceSpecifier" => branch .importNamespaceSpecifier [("local", .one)]
  | "ExportNamedDeclaration" =>
    branch .exportNamedDeclaration
      [("declaration", .maybe), ("specifiers", .many), ("source", .maybe)]
  | "ExportSpecifier" => branch .exportSpecifier [("local", .one), ("exported", .one)]
  | "ExportDefaultDeclaration" => branch .exportDefaultDeclaration [("declaration", .one)]
  | "ExportAllDeclaration" =>
    branch .exportAllDeclaration [("exported", .maybe), ("source", .one)]
  | typeName => branch (.unknown typeName) object.unknownChildren

end NodeObject

end SyntaxMarkup
