import SyntaxMarkup.Proofs.Tree.Addresses

namespace SyntaxMarkup

/-- What a field has to hold. A field that is null counts as absent. -/
inductive Rule where
  | node
  | nodeOrNone
  | nodes
  | nodesAndHoles
  | text
  | word (words : List String)
  | wordOrNone (words : List String)
  /-- The text of a literal; a literal that has none has to have a value. -/
  | raw
  | regex
  | template
  /-- A field that may hold anything; what is not of the right type counts as absent. -/
  | free
  deriving DecidableEq

def words (α : Type) [Vocabulary α] : List String :=
  (Vocabulary.all : List α).map Vocabulary.word

/-- The fields of each type that has rules of its own, those with children in order. -/
def schema : String → Option (List (String × Rule))
  | "Program" => some [("body", .nodes), ("sourceType", .free)]
  | "BlockStatement" | "StaticBlock" | "ClassBody" => some [("body", .nodes)]
  | "Identifier" | "PrivateIdentifier" => some [("name", .text)]
  | "Literal" => some [("regex", .regex), ("raw", .raw), ("bigint", .free)]
  | "EmptyStatement" | "DebuggerStatement" | "ThisExpression" | "Super" => some []
  | "ExpressionStatement" => some [("expression", .node), ("directive", .free)]
  | "ChainExpression" | "ParenthesizedExpression" => some [("expression", .node)]
  | "WithStatement" => some [("object", .node), ("body", .node)]
  | "ReturnStatement" => some [("argument", .nodeOrNone)]
  | "YieldExpression" => some [("argument", .nodeOrNone), ("delegate", .free)]
  | "LabeledStatement" => some [("label", .node), ("body", .node)]
  | "BreakStatement" | "ContinueStatement" => some [("label", .nodeOrNone)]
  | "IfStatement" => some [("test", .node), ("consequent", .node), ("alternate", .nodeOrNone)]
  | "SwitchStatement" => some [("discriminant", .node), ("cases", .nodes)]
  | "SwitchCase" => some [("test", .nodeOrNone), ("consequent", .nodes)]
  | "ThrowStatement" | "AwaitExpression" | "SpreadElement" | "RestElement" =>
    some [("argument", .node)]
  | "TryStatement" =>
    some [("block", .node), ("handler", .nodeOrNone), ("finalizer", .nodeOrNone)]
  | "CatchClause" => some [("param", .nodeOrNone), ("body", .node)]
  | "WhileStatement" => some [("test", .node), ("body", .node)]
  | "DoWhileStatement" => some [("body", .node), ("test", .node)]
  | "ForStatement" =>
    some [("init", .nodeOrNone), ("test", .nodeOrNone), ("update", .nodeOrNone), ("body", .node)]
  | "ForInStatement" => some [("left", .node), ("right", .node), ("body", .node)]
  | "ForOfStatement" => some [("left", .node), ("right", .node), ("body", .node), ("await", .free)]
  | "FunctionDeclaration" | "FunctionExpression" =>
    some [("id", .nodeOrNone), ("params", .nodes), ("body", .node), ("async", .free),
      ("generator", .free)]
  | "ArrowFunctionExpression" => some [("params", .nodes), ("body", .node), ("async", .free)]
  | "VariableDeclaration" =>
    some [("kind", .word (words VariableKind)), ("declarations", .nodes)]
  | "VariableDeclarator" => some [("id", .node), ("init", .nodeOrNone)]
  | "ClassDeclaration" | "ClassExpression" =>
    some [("id", .nodeOrNone), ("superClass", .nodeOrNone), ("body", .node)]
  | "MethodDefinition" =>
    some [("key", .node), ("value", .node), ("kind", .word (words MethodKind)),
      ("computed", .free), ("static", .free)]
  | "PropertyDefinition" =>
    some [("key", .node), ("value", .nodeOrNone), ("computed", .free), ("static", .free)]
  | "ArrayExpression" | "ArrayPattern" => some [("elements", .nodesAndHoles)]
  | "ObjectExpression" | "ObjectPattern" => some [("properties", .nodes)]
  | "Property" =>
    some [("key", .node), ("value", .node), ("kind", .wordOrNone (words PropertyKind)),
      ("method", .free), ("shorthand", .free), ("computed", .free)]
  | "UnaryExpression" => some [("operator", .word (words UnaryOperator)), ("argument", .node)]
  | "UpdateExpression" =>
    some [("operator", .word (words UpdateOperator)), ("argument", .node), ("prefix", .free)]
  | "BinaryExpression" =>
    some [("operator", .word (words BinaryOperator)), ("left", .node), ("right", .node)]
  | "LogicalExpression" =>
    some [("operator", .word (words LogicalOperator)), ("left", .node), ("right", .node)]
  | "AssignmentExpression" =>
    some [("operator", .word (words AssignmentOperator)), ("left", .node), ("right", .node)]
  | "AssignmentPattern" => some [("left", .node), ("right", .node)]
  | "MemberExpression" =>
    some [("object", .node), ("property", .node), ("computed", .free), ("optional", .free)]
  | "ConditionalExpression" => some [("test", .node), ("consequent", .node), ("alternate", .node)]
  | "CallExpression" => some [("callee", .node), ("arguments", .nodes), ("optional", .free)]
  | "NewExpression" => some [("callee", .node), ("arguments", .nodes)]
  | "SequenceExpression" => some [("expressions", .nodes)]
  | "TemplateLiteral" => some [("quasis", .nodes), ("expressions", .nodes)]
  | "TaggedTemplateExpression" => some [("tag", .node), ("quasi", .node)]
  | "TemplateElement" => some [("value", .template), ("tail", .free)]
  | "MetaProperty" => some [("meta", .node), ("property", .node)]
  | "ImportExpression" => some [("source", .node)]
  | "ImportDeclaration" => some [("specifiers", .nodes), ("source", .node)]
  | "ImportSpecifier" => some [("imported", .node), ("local", .node)]
  | "ImportDefaultSpecifier" | "ImportNamespaceSpecifier" => some [("local", .node)]
  | "ExportNamedDeclaration" =>
    some [("declaration", .nodeOrNone), ("specifiers", .nodes), ("source", .nodeOrNone)]
  | "ExportSpecifier" => some [("local", .node), ("exported", .node)]
  | "ExportDefaultDeclaration" => some [("declaration", .node)]
  | "ExportAllDeclaration" => some [("exported", .nodeOrNone), ("source", .node)]
  | _ => none

namespace Rule

/-- Whether a field with children has one of them, at most one, or a list. -/
def arity? : Rule → Option Arity
  | node => some .one
  | nodeOrNone => some .maybe
  | nodes => some .many
  | nodesAndHoles => some .sparse
  | _ => none

end Rule

/-- An object with a string as its `type`. -/
def Json.Is (value : Json) (object : NodeObject) : Prop :=
  value = .object object.members ∧ object.members.lookup "type" = some (.string object.typeName)

namespace Rule

/-- The values that a field may hold. What is below a node is not looked at. -/
def Shape : Rule → Json → Prop
  | node, value | nodeOrNone, value => ∃ object, value.Is object
  | nodes, value => ∃ items, value = .array items ∧ ∀ item ∈ items, ∃ object, item.Is object
  | nodesAndHoles, value =>
    ∃ items, value = .array items ∧ ∀ item ∈ items, item = .null ∨ ∃ object, item.Is object
  | text, value => ∃ text, value = .string text
  | word words, value | wordOrNone words, value => ∃ word ∈ words, value = .string word
  | regex, value =>
    ∀ members, value = .object members →
      ∃ pattern, members.lookup "pattern" = some (.string pattern)
  | template, value =>
    ∃ members raw, value = .object members ∧ members.lookup "raw" = some (.string raw)
  | raw, _ | free, _ => True

/-- A field is absent where it has to be there. -/
def Absent (rule : Rule) (object : NodeObject) (name : String) : Prop :=
  match rule with
  | nodeOrNone | wordOrNone _ | regex | free => False
  | raw =>
    (∀ text, object.members.lookup name ≠ some (.string text)) ∧
      object.members.lookup "value" = none
  | node | nodes | nodesAndHoles | text | word _ | template => object.field? name = none

/-- The values in a field with children that are read as nodes. -/
def Part : Rule → Json → Json → Prop
  | node, value, part | nodeOrNone, value, part => part = value
  | nodes, value, part | nodesAndHoles, value, part =>
    ∃ items, value = .array items ∧ part ∈ items ∧ part ≠ .null
  | _, _, _ => False

end Rule

namespace NodeObject

/-- The rule that a field of an object is under. An object of a type without rules of its own has
its nodes, and its lists of nodes and nulls that are not without nodes, as children. -/
inductive Demands (object : NodeObject) : String → Rule → Prop
  | listed {rules : List (String × Rule)} {name : String} {rule : Rule}
      (known : schema object.typeName = some rules) (mem : (name, rule) ∈ rules) :
      object.Demands name rule
  | child {name : String} {value : Json} {inner : NodeObject}
      (unknown : schema object.typeName = none) (apart : name ∉ "type" :: positionFields)
      (found : object.members.lookup name = some value) (is : value.Is inner) :
      object.Demands name .node
  | children {name : String} {items : List Json} {item : Json} {inner : NodeObject}
      (unknown : schema object.typeName = none) (apart : name ∉ "type" :: positionFields)
      (found : object.members.lookup name = some (.array items))
      (all : ∀ item ∈ items, item = .null ∨ ∃ inner, item.Is inner) (mem : item ∈ items)
      (is : item.Is inner) : object.Demands name .nodesAndHoles

/-- A field is as it has to be, what is below its nodes apart. -/
def Keeps (object : NodeObject) (name : String) (rule : Rule) : Prop :=
  ¬rule.Absent object name ∧ ∀ value, object.field? name = some value → rule.Shape value

/-- A value in a field with children. -/
def HasPart (object : NodeObject) (part : Json) : Prop :=
  ∃ name rule value, object.Demands name rule ∧ object.field? name = some value ∧
    rule.Part value part

end NodeObject

namespace Json

/-- A node all of whose fields keep to the rules of its type, and so on below it. -/
inductive Conforms : Json → Prop
  | node {value : Json} {object : NodeObject} (is : value.Is object)
      (keeps : ∀ name rule, object.Demands name rule → object.Keeps name rule)
      (below : ∀ part, object.HasPart part → part.Conforms) : value.Conforms

/-- The objects of the nodes at and below a value, down along the fields with children. -/
inductive Reaches : Json → NodeObject → Prop
  | here {value : Json} {object : NodeObject} (is : value.Is object) : value.Reaches object
  | deeper {value part : Json} {object inner : NodeObject} (is : value.Is object)
      (has : object.HasPart part) (reaches : part.Reaches inner) : value.Reaches inner

end Json

namespace NodeObject

/-- No type has two rules for a field, nor one for the type or for the places in the source text. -/
theorem nodup_fields {typeName : String} {rules : List (String × Rule)}
    (h : schema typeName = some rules) :
    (("type" :: positionFields) ++ rules.map Prod.fst).Nodup := by
  unfold schema at h
  split at h
  case h_73 => cases h
  all_goals
    cases h
    decide

theorem nodup_schema {typeName : String} {rules : List (String × Rule)}
    (h : schema typeName = some rules) : (rules.map Prod.fst).Nodup :=
  (List.nodup_append.mp (nodup_fields h)).2.1

theorem apart_of_schema {typeName : String} {rules : List (String × Rule)}
    (h : schema typeName = some rules) :
    ∀ entry ∈ rules, entry.1 ∉ "type" :: positionFields := by
  intro entry hm hfields
  have ha := (List.nodup_append.mp (nodup_fields h)).2.2
  exact ha _ hfields _ (List.mem_map_of_mem hm) rfl

theorem form_of_unlisted {object : NodeObject} (h : schema object.typeName = none) :
    object.form = ⟨.ok (.unknown object.typeName), object.unknownChildren, false⟩ := by
  unfold schema at h
  split at h
  case h_73 =>
    unfold form
    split
    case h_73 => rfl
    all_goals contradiction
  all_goals cases h

theorem children_form {object : NodeObject} {rules : List (String × Rule)}
    (h : schema object.typeName = some rules) :
    object.form.children = rules.filterMap fun entry => entry.2.arity?.map (entry.1, ·) := by
  obtain ⟨typeName, members⟩ := object
  change schema typeName = some rules at h
  unfold schema at h
  split at h
  case h_73 => cases h
  all_goals
    cases h
    rfl

end NodeObject

end SyntaxMarkup
