import SyntaxMarkup.Tree.Node

namespace SyntaxMarkup

/-- The binding strength of an expression, or the least strength that a place accepts without
parentheses; more binds tighter. -/
abbrev Strength := Nat

namespace Strength

def sequence : Strength := 1
def assignment : Strength := 2
def conditional : Strength := 3
def unary : Strength := 15
def update : Strength := 16
def call : Strength := 18
def primary : Strength := 20

/-- Above every expression. -/
def parenthesized : Strength := 255

end Strength

def BinaryOperator.strength : BinaryOperator → Strength
  | bitOr => 6
  | bitXor => 7
  | bitAnd => 8
  | equal | notEqual | identical | notIdentical => 9
  | less | lessOrEqual | greater | greaterOrEqual | member | instanceOf => 10
  | shiftLeft | shiftRight | shiftRightUnsigned => 11
  | add | subtract => 12
  | multiply | divide | remainder => 13
  | power => 14

def LogicalOperator.strength : LogicalOperator → Strength
  | coalesce | or => 4
  | and => 5

namespace Kind

/-- The binding strength of a node; what is no operator binds tightest. -/
def strength : Kind → Strength
  | sequenceExpression => .sequence
  | assignmentExpression _ | arrowFunctionExpression _ | yieldExpression _ => .assignment
  | conditionalExpression => .conditional
  | logicalExpression operator => operator.strength
  | binaryExpression operator => operator.strength
  | unaryExpression _ | awaitExpression => .unary
  | updateExpression _ _ => .update
  | callExpression _ | newExpression | memberExpression _ _ | chainExpression
  | taggedTemplateExpression | importExpression | metaProperty => .call
  | _ => .primary

theorem strength_lt_parenthesized (kind : Kind) : kind.strength < .parenthesized := by
  unfold strength
  split
  case h_6 operator => cases operator <;> decide
  case h_7 operator => cases operator <;> decide
  all_goals decide

/-- Coalescing does not mix with the other logical operators. -/
def clashesWith (operator : LogicalOperator) : Kind → Bool
  | logicalExpression inner => (operator == .coalesce) != (inner == .coalesce)
  | _ => false

/-- Two signs in a row would read as one operator. -/
def runsInto (operator : UnaryOperator) : Kind → Bool
  | unaryExpression inner =>
    (operator == .minus && inner == .minus) || (operator == .plus && inner == .plus)
  | updateExpression inner true =>
    (operator == .minus && inner == .decrement) || (operator == .plus && inner == .increment)
  | _ => false

/-- A literal of digits takes a point after it as its own. -/
def isBareInteger : Kind → Bool
  | literal raw none _ => !raw.isEmpty && raw.toList.all fun c => c.isDigit || c == '_'
  | _ => false

/-- The child whose text an expression starts with. -/
def leading? {α : Type} : Kind → List (Slot α) → Option α
  | callExpression _, .one callee :: _ => some callee
  | memberExpression _ _, .one object :: _ => some object
  | taggedTemplateExpression, .one tag :: _ => some tag
  | chainExpression, .one expression :: _ => some expression
  | binaryExpression _, .one left :: _ => some left
  | logicalExpression _, .one left :: _ => some left
  | assignmentExpression _, .one left :: _ => some left
  | conditionalExpression, .one test :: _ => some test
  | updateExpression _ false, .one argument :: _ => some argument
  | sequenceExpression, .many (first :: _) :: _ => some first
  | _, _ => none

/-- The child that a call after `new` would be taken from. -/
def calleeBase? {α : Type} : Kind → List (Slot α) → Option α
  | memberExpression _ _, .one object :: _ => some object
  | taggedTemplateExpression, .one tag :: _ => some tag
  | _, _ => none

def isCall : Kind → Bool
  | callExpression _ | chainExpression => true
  | _ => false

end Kind

namespace Node

variable {ι : Type}

def firstKind : Node ι → Kind :=
  fold fun node fields => (node.kind.leading? (fields.map Field.slot)).elim node.kind (·.value)

def startsWithBrace (node : Node ι) : Bool :=
  match node.firstKind with
  | .objectExpression | .objectPattern => true
  | _ => false

def startsWithDeclaration (node : Node ι) : Bool :=
  match node.firstKind with
  | .functionExpression _ _ | .classExpression => true
  | _ => false

/-- Whether the arguments after `new` and this expression would go to a call inside it. -/
def containsCall : Node ι → Bool :=
  fold fun node fields =>
    node.kind.isCall || (node.kind.calleeBase? (fields.map Field.slot)).elim false (·.value)

def sameName (a b : Node ι) : Bool :=
  match a.kind, b.kind with
  | .identifier a, .identifier b => a == b
  | _, _ => false

/-- The node that a shorthand property names: a pattern with a default names its left side. -/
def named (node : Node ι) : Node ι :=
  match node.kind, node.slots with
  | .assignmentPattern, .one left :: _ => left
  | _, _ => node

end Node

end SyntaxMarkup
