import SyntaxMarkup.Options
import SyntaxMarkup.Tree.Keyword

namespace SyntaxMarkup

structure RegexLiteral where
  pattern : String
  flags : String
  deriving DecidableEq, Repr

inductive Kind where
  | program (sourceType : SourceType)
  | identifier (name : String)
  | privateIdentifier (name : String)
  | literal (raw : String) (regex : Option RegexLiteral) (bigint : Option String)
  | expressionStatement (directive : Option String)
  | blockStatement
  | staticBlock
  | emptyStatement
  | debuggerStatement
  | withStatement
  | returnStatement
  | labeledStatement
  | breakStatement
  | continueStatement
  | ifStatement
  | switchStatement
  | switchCase
  | throwStatement
  | tryStatement
  | catchClause
  | whileStatement
  | doWhileStatement
  | forStatement
  | forInStatement
  | forOfStatement (await : Bool)
  | functionDeclaration (async generator : Bool)
  | variableDeclaration (kind : VariableKind)
  | variableDeclarator
  | classDeclaration
  | classBody
  | methodDefinition (kind : MethodKind) (computed static : Bool)
  | propertyDefinition (computed static : Bool)
  | thisExpression
  | super
  | arrayExpression
  | objectExpression
  | property (kind : PropertyKind) (method shorthand computed : Bool)
  | functionExpression (async generator : Bool)
  | arrowFunctionExpression (async : Bool)
  | classExpression
  | unaryExpression (operator : UnaryOperator)
  | updateExpression (operator : UpdateOperator) (leading : Bool)
  | binaryExpression (operator : BinaryOperator)
  | logicalExpression (operator : LogicalOperator)
  | assignmentExpression (operator : AssignmentOperator)
  | memberExpression (computed optional : Bool)
  | conditionalExpression
  | callExpression (optional : Bool)
  | newExpression
  | sequenceExpression
  | yieldExpression (delegate : Bool)
  | awaitExpression
  | templateLiteral
  | taggedTemplateExpression
  | templateElement (raw : String) (cooked : Option String) (tail : Bool)
  | metaProperty
  | importExpression
  | chainExpression
  | parenthesizedExpression
  | spreadElement
  | objectPattern
  | arrayPattern
  | restElement
  | assignmentPattern
  | importDeclaration
  | importSpecifier
  | importDefaultSpecifier
  | importNamespaceSpecifier
  | exportNamedDeclaration
  | exportSpecifier
  | exportDefaultDeclaration
  | exportAllDeclaration
  /-- A type that has no rules of its own. -/
  | unknown (typeName : String)
  deriving DecidableEq, Repr

def Kind.typeName : Kind → String
  | program _ => "Program"
  | identifier _ => "Identifier"
  | privateIdentifier _ => "PrivateIdentifier"
  | literal _ _ _ => "Literal"
  | expressionStatement _ => "ExpressionStatement"
  | blockStatement => "BlockStatement"
  | staticBlock => "StaticBlock"
  | emptyStatement => "EmptyStatement"
  | debuggerStatement => "DebuggerStatement"
  | withStatement => "WithStatement"
  | returnStatement => "ReturnStatement"
  | labeledStatement => "LabeledStatement"
  | breakStatement => "BreakStatement"
  | continueStatement => "ContinueStatement"
  | ifStatement => "IfStatement"
  | switchStatement => "SwitchStatement"
  | switchCase => "SwitchCase"
  | throwStatement => "ThrowStatement"
  | tryStatement => "TryStatement"
  | catchClause => "CatchClause"
  | whileStatement => "WhileStatement"
  | doWhileStatement => "DoWhileStatement"
  | forStatement => "ForStatement"
  | forInStatement => "ForInStatement"
  | forOfStatement _ => "ForOfStatement"
  | functionDeclaration _ _ => "FunctionDeclaration"
  | variableDeclaration _ => "VariableDeclaration"
  | variableDeclarator => "VariableDeclarator"
  | classDeclaration => "ClassDeclaration"
  | classBody => "ClassBody"
  | methodDefinition _ _ _ => "MethodDefinition"
  | propertyDefinition _ _ => "PropertyDefinition"
  | thisExpression => "ThisExpression"
  | super => "Super"
  | arrayExpression => "ArrayExpression"
  | objectExpression => "ObjectExpression"
  | property _ _ _ _ => "Property"
  | functionExpression _ _ => "FunctionExpression"
  | arrowFunctionExpression _ => "ArrowFunctionExpression"
  | classExpression => "ClassExpression"
  | unaryExpression _ => "UnaryExpression"
  | updateExpression _ _ => "UpdateExpression"
  | binaryExpression _ => "BinaryExpression"
  | logicalExpression _ => "LogicalExpression"
  | assignmentExpression _ => "AssignmentExpression"
  | memberExpression _ _ => "MemberExpression"
  | conditionalExpression => "ConditionalExpression"
  | callExpression _ => "CallExpression"
  | newExpression => "NewExpression"
  | sequenceExpression => "SequenceExpression"
  | yieldExpression _ => "YieldExpression"
  | awaitExpression => "AwaitExpression"
  | templateLiteral => "TemplateLiteral"
  | taggedTemplateExpression => "TaggedTemplateExpression"
  | templateElement _ _ _ => "TemplateElement"
  | metaProperty => "MetaProperty"
  | importExpression => "ImportExpression"
  | chainExpression => "ChainExpression"
  | parenthesizedExpression => "ParenthesizedExpression"
  | spreadElement => "SpreadElement"
  | objectPattern => "ObjectPattern"
  | arrayPattern => "ArrayPattern"
  | restElement => "RestElement"
  | assignmentPattern => "AssignmentPattern"
  | importDeclaration => "ImportDeclaration"
  | importSpecifier => "ImportSpecifier"
  | importDefaultSpecifier => "ImportDefaultSpecifier"
  | importNamespaceSpecifier => "ImportNamespaceSpecifier"
  | exportNamedDeclaration => "ExportNamedDeclaration"
  | exportSpecifier => "ExportSpecifier"
  | exportDefaultDeclaration => "ExportDefaultDeclaration"
  | exportAllDeclaration => "ExportAllDeclaration"
  | unknown typeName => typeName

end SyntaxMarkup
