import SyntaxMarkup.Proofs.Tree.Traversal

namespace SyntaxMarkup

/-- What the nodes in a field are for the node above them. -/
inductive Role where
  | expression
  /-- What an assignment changes. -/
  | target
  /-- The first word of a meta property. -/
  | name
  /-- A name, or a pattern that binds some, or the value of a property in one. -/
  | pattern
  /-- The first part of the header of a loop. -/
  | header
  | declarator
  | functionBody
  | arrowBody
  | classBody
  /-- The template after a tag. -/
  | template
  | templateText
  | defaultExport
  | free
  deriving DecidableEq

namespace Kind

def roleOf (kind : Kind) (field : String) : Role :=
  match kind with
  | expressionStatement _ | returnStatement | throwStatement | parenthesizedExpression
  | arrayExpression | unaryExpression _ | updateExpression _ _ | binaryExpression _
  | logicalExpression _ | memberExpression _ _ | conditionalExpression | callExpression _
  | newExpression | sequenceExpression | yieldExpression _ | awaitExpression | importExpression
  | chainExpression | spreadElement => .expression
  | taggedTemplateExpression => if field = "quasi" then .template else .expression
  | withStatement => if field = "object" then .expression else .free
  | ifStatement | switchCase | whileStatement | doWhileStatement =>
    if field = "test" then .expression else .free
  | switchStatement => if field = "discriminant" then .expression else .free
  | catchClause => if field = "param" then .pattern else .free
  | forStatement =>
    if field = "init" then .header else if field = "body" then .free else .expression
  | forInStatement | forOfStatement _ =>
    if field = "left" then .header else if field = "body" then .free else .expression
  | functionDeclaration _ _ | functionExpression _ _ =>
    if field = "body" then .functionBody else .pattern
  | arrowFunctionExpression _ => if field = "body" then .arrowBody else .pattern
  | variableDeclaration _ => .declarator
  | variableDeclarator => if field = "init" then .expression else .pattern
  | classDeclaration | classExpression =>
    if field = "body" then .classBody
    else if field = "superClass" then .expression
    else .pattern
  | methodDefinition _ _ _ | propertyDefinition _ _ => .expression
  | property _ _ _ _ => if field = "key" then .expression else .pattern
  | assignmentExpression _ => if field = "left" then .target else .expression
  | assignmentPattern => if field = "right" then .expression else .pattern
  | arrayPattern | restElement => .pattern
  | templateLiteral => if field = "quasis" then .templateText else .expression
  | metaProperty => if field = "meta" then .name else .expression
  | exportDefaultDeclaration => .defaultExport
  | _ => .free

/-- Whether a type is that of expressions; a node of unknown type may be one. -/
def isExpression : Kind → Bool
  | identifier _ | privateIdentifier _ | literal _ _ _ | thisExpression | super | arrayExpression
  | objectExpression | functionExpression _ _ | arrowFunctionExpression _ | classExpression
  | unaryExpression _ | updateExpression _ _ | binaryExpression _ | logicalExpression _
  | assignmentExpression _ | memberExpression _ _ | conditionalExpression | callExpression _
  | newExpression | sequenceExpression | yieldExpression _ | awaitExpression | templateLiteral
  | taggedTemplateExpression | metaProperty | importExpression | chainExpression
  | parenthesizedExpression | spreadElement | unknown _ => true
  | _ => false

def isPattern : Kind → Bool
  | objectPattern | arrayPattern | restElement | assignmentPattern => true
  | _ => false

end Kind

namespace Role

/-- Whether a node may stand in a field: expressions and patterns are not told apart. The texts of a
template have to be such texts, or expressions or patterns. -/
def admits (role : Role) (kind : Kind) : Bool :=
  let isTerm := kind.isExpression || kind.isPattern
  match role with
  | expression | target | name | pattern | template => isTerm
  | header => isTerm || (kind matches .variableDeclaration _)
  | declarator => kind == .variableDeclarator
  | functionBody => kind == .blockStatement
  | arrowBody => isTerm || kind == .blockStatement
  | classBody => kind == .classBody
  | templateText => isTerm || (kind matches .templateElement _ _ _)
  | defaultExport | free => true

/-- Whether a node may stand in a field if the texts of a template may be nodes of any kind. -/
def admitsAnyText (role : Role) (kind : Kind) : Bool :=
  role == .templateText || role.admits kind

/-- Whether a node may stand in a field that holds expressions; the other fields may hold any
node. -/
def admitsExpression (role : Role) (kind : Kind) : Bool :=
  match role with
  | expression => kind.isExpression
  | target => kind.isExpression || kind == .objectPattern || kind == .arrayPattern
  | name => (kind matches .identifier _)
  | template => kind == .templateLiteral
  | arrowBody => kind.isExpression || kind == .blockStatement
  | defaultExport =>
    kind.isExpression || kind == .classDeclaration || (kind matches .functionDeclaration _ _)
  | _ => true

end Role

namespace Node

/-- Whether the nodes at and below a node stand where they may. -/
def Obeys (node : Node Nat) (allows : Role → Kind → Bool) : Prop :=
  ∀ below ∈ node.preorder, ∀ edge ∈ below.edges,
    allows (below.kind.roleOf edge.key) edge.child.kind = true

theorem Obeys.of_mem {node below : Node Nat} {allows : Role → Kind → Bool}
    (hobeys : node.Obeys allows) (hmem : below ∈ node.preorder) : below.Obeys allows :=
  fun other hmem' => hobeys other (mem_preorder_trans hmem hmem')

end Node

/-- Whether the node at each edge of a tree may stand where it stands. -/
def Tree.obeys (tree : Tree) (allows : Role → Kind → Bool) : Bool :=
  tree.root.preorder.all fun node =>
    node.edges.all fun edge => allows (node.kind.roleOf edge.key) edge.child.kind

theorem Tree.obeys_of_mem {tree : Tree} {allows : Role → Kind → Bool}
    (hobeys : tree.obeys allows = true) {node : Node Nat} (hm : node ∈ tree.root.preorder) :
    node.Obeys allows := by
  intro below hb edge he
  have ho := List.all_eq_true.mp hobeys below (Node.mem_preorder_trans hm hb)
  exact List.all_eq_true.mp ho edge he

end SyntaxMarkup
