import SyntaxMarkup.Layout.Strength

namespace SyntaxMarkup

inductive Event where
  | openUnit (label : String) (title : Option String) (node : Nat)
  | text (content : String)
  | pad (level : Nat)
  | close
  /-- A node is shown by the unit of another one. -/
  | share (node target : Nat)
  deriving DecidableEq, Repr

inductive Place where
  | plain
  /-- The header of a loop, where a declaration has no semicolon. -/
  | header
  /-- The value of a method, where a function starts with its parameters. -/
  | method
  deriving DecidableEq, Repr

/-- A child with its events at a place and a level of indentation. -/
abbrev Part := Computed Nat (Place → Nat → List Event)

inductive Piece where
  | text (content : String)
  | pad (deeper : Nat)
  | child (part : Part) (place : Place) (deeper : Nat)
  | share (node target : Nat)

def Piece.events (level : Nat) : Piece → List Event
  | .text content => [.text content]
  | .pad deeper => [.pad (level + deeper)]
  | .child part place deeper => part.value place (level + deeper)
  | .share node target => [.share node target]

namespace Piece

def lit (content : String) : List Piece := [.text content]

def litIf (flag : Bool) (content : String) : List Piece :=
  if flag then lit content else []

def plain (part : Part) : List Piece := [.child part .plain 0]

/-- A child, in parentheses if it binds weaker than its place accepts. -/
def atLeast (least : Strength) (part : Part) : List Piece :=
  if part.node.kind.strength < least then lit "(" ++ plain part ++ lit ")" else plain part

def given (before : String) (write : Part → List Piece) : Option Part → List Piece
  | none => []
  | some part => lit before ++ write part

def separated (separator : List Piece) (items : List (List Piece)) : List Piece :=
  (items.intersperse separator).flatten

def commas (parts : List Part) : List Piece :=
  separated (lit ", ") (parts.map (atLeast .assignment))

/-- Children and holes with commas between them; a hole at the end has a comma of its own. -/
def sparseCommas (parts : List (Option Part)) : List Piece :=
  separated (lit ", ") (parts.map fun part => part.elim [] (atLeast .assignment)) ++
    litIf (parts.getLast?.any Option.isNone) ","

def lines (parts : List Part) : List Piece :=
  separated (lit "\n") (parts.map fun part => .pad 0 :: plain part)

def block (parts : List Part) : List Piece :=
  if parts.isEmpty then lit "\x7b\x7d"
  else
    lit "\x7b\n" ++ parts.flatMap (fun part => [.pad 1, .child part .plain 1, .text "\n"]) ++
      [.pad 0, .text "\x7d"]

def braces (parts : List Part) : List Piece :=
  if parts.isEmpty then lit "\x7b\x7d" else lit "\x7b " ++ commas parts ++ lit " \x7d"

def key (computed : Bool) (part : Part) : List Piece :=
  if computed then lit "[" ++ atLeast .assignment part ++ lit "]" else plain part

def header (part : Part) : List Piece :=
  match part.node.kind with
  | .variableDeclaration _ => [.child part .header 0]
  | _ => atLeast .sequence part

def parameters (params : List Part) (body : Part) : List Piece :=
  lit "(" ++ commas params ++ lit ") " ++ plain body

/-- The key and the function of a method, with the marks of the function before the key. -/
def method (computed : Bool) (methodKey value : Part) : List Piece :=
  match value.node.kind with
  | .functionExpression async generator =>
    litIf async "async " ++ litIf generator "*" ++ key computed methodKey ++
      [.child value .method 0]
  | _ => key computed methodKey ++ plain value

/-- A name that the text spells once or twice. -/
def renamed (name other : Part) : List Piece :=
  if name.node.sameName other.node then plain name ++ [.share other.node.id name.node.id]
  else plain name ++ lit " as " ++ plain other

end Piece

end SyntaxMarkup
