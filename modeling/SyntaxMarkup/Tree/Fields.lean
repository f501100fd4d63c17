import SyntaxMarkup.Tree.Kind

namespace SyntaxMarkup

inductive Arity where
  | one
  | maybe
  | many
  | sparse
  deriving DecidableEq, Repr

namespace Kind

/-- The fields with the children of a type, in order. A type that has no rules of its own has no
fixed fields. -/
def fields? : Kind → Option (List (String × Arity))
  | program _ | blockStatement | staticBlock | classBody => some [("body", .many)]
  | identifier _ | privateIdentifier _ | literal _ _ _ | emptyStatement | debuggerStatement
  | thisExpression | super | templateElement _ _ _ => some []
  | expressionStatement _ | chainExpression | parenthesizedExpression =>
    some [("expression", .one)]
  | withStatement => some [("object", .one), ("body", .one)]
  | returnStatement | yieldExpression _ => some [("argument", .maybe)]
  | labeledStatement => some [("label", .one), ("body", .one)]
  | breakStatement | continueStatement => some [("label", .maybe)]
  | ifStatement => some [("test", .one), ("consequent", .one), ("alternate", .maybe)]
  | switchStatement => some [("discriminant", .one), ("cases", .many)]
  | switchCase => some [("test", .maybe), ("consequent", .many)]
  | throwStatement | awaitExpression | spreadElement | restElement | unaryExpression _
  | updateExpression _ _ => some [("argument", .one)]
  | tryStatement => some [("block", .one), ("handler", .maybe), ("finalizer", .maybe)]
  | catchClause => some [("param", .maybe), ("body", .one)]
  | whileStatement => some [("test", .one), ("body", .one)]
  | doWhileStatement => some [("body", .one), ("test", .one)]
  | forStatement => some [("init", .maybe), ("test", .maybe), ("update", .maybe), ("body", .one)]
  | forInStatement | forOfStatement _ => some [("left", .one), ("right", .one), ("body", .one)]
  | functionDeclaration _ _ | functionExpression _ _ =>
    some [("id", .maybe), ("params", .many), ("body", .one)]
  | arrowFunctionExpression _ => some [("params", .many), ("body", .one)]
  | variableDeclaration _ => some [("declarations", .many)]
  | variableDeclarator => some [("id", .one), ("init", .maybe)]
  | classDeclaration | classExpression =>
    some [("id", .maybe), ("superClass", .maybe), ("body", .one)]
  | methodDefinition _ _ _ | property _ _ _ _ => some [("key", .one), ("value", .one)]
  | propertyDefinition _ _ => some [("key", .one), ("value", .maybe)]
  | arrayExpression | arrayPattern => some [("elements", .sparse)]
  | objectExpression | objectPattern => some [("properties", .many)]
  | binaryExpression _ | logicalExpression _ | assignmentExpression _ | assignmentPattern =>
    some [("left", .one), ("right", .one)]
  | memberExpression _ _ => some [("object", .one), ("property", .one)]
  | conditionalExpression => some [("test", .one), ("consequent", .one), ("alternate", .one)]
  | callExpression _ | newExpression => some [("callee", .one), ("arguments", .many)]
  | sequenceExpression => some [("expressions", .many)]
  | templateLiteral => some [("quasis", .many), ("expressions", .many)]
  | taggedTemplateExpression => some [("tag", .one), ("quasi", .one)]
  | metaProperty => some [("meta", .one), ("property", .one)]
  | importExpression => some [("source", .one)]
  | importDeclaration => some [("specifiers", .many), ("source", .one)]
  | importSpecifier => some [("imported", .one), ("local", .one)]
  | importDefaultSpecifier | importNamespaceSpecifier => some [("local", .one)]
  | exportNamedDeclaration =>
    some [("declaration", .maybe), ("specifiers", .many), ("source", .maybe)]
  | exportSpecifier => some [("local", .one), ("exported", .one)]
  | exportDefaultDeclaration => some [("declaration", .one)]
  | exportAllDeclaration => some [("exported", .maybe), ("source", .one)]
  | unknown _ => none

/-- No two fields of a type have the same name. -/
theorem fields?_nodup {kind : Kind} {fields : List (String × Arity)}
    (h : kind.fields? = some fields) : (fields.map Prod.fst).Nodup := by
  cases kind <;> simp only [fields?, Option.some.injEq, reduceCtorEq] at h <;> subst h <;> decide

end Kind

end SyntaxMarkup
