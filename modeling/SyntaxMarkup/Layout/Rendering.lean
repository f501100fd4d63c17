import SyntaxMarkup.Layout.Template
import SyntaxMarkup.Markup.Arena
import SyntaxMarkup.Markup.Builder
import SyntaxMarkup.Notice

namespace SyntaxMarkup

def unknownLabel : String := "Unknown"

def errorLabel : String := "ParseError"

namespace Node

/-- The pieces of a node at a place. A node without a template is the unit of all nodes below
it. -/
def pieces (node : Node Nat) (slots : List (Slot Part)) (place : Place) : List Piece :=
  match node.kind, slots, place with
  | .variableDeclaration kind, [.many declarations], .header =>
    Piece.lit kind.word ++ Piece.lit " " ++ Piece.commas declarations
  | .functionExpression _ _, [_, .many params, .one body], .method =>
    Piece.parameters params body
  | .unknown typeName, _, _ =>
    Template.pieces (.unknown typeName) slots ++
      node.descendants.map fun below => .share below.id node.id
  | kind, _, _ => Template.pieces kind slots

/-- Events inside the unit of a node; a program has none. -/
def framed (node : Node Nat) (inside : List Event) : List Event :=
  match node.kind with
  | .program _ => inside
  | .unknown typeName =>
    .openUnit unknownLabel (some typeName) node.id :: inside ++ [.close]
  | kind => .openUnit kind.typeName none node.id :: inside ++ [.close]

def events : Node Nat → Place → Nat → List Event :=
  fold fun node fields place level =>
    node.framed ((node.pieces (fields.map Field.slot) place).flatMap (Piece.events level))

end Node

/-- Applies one event; a level of indentation is a copy of `indent`. -/
def Builder.apply (indent : String) (builder : Builder) : Event → Builder
  | .openUnit label title node => builder.openUnit label title (some node)
  | .text content => builder.text content
  | .pad level => builder.text (String.join (List.replicate level indent))
  | .close => builder.close
  | .share node target => builder.share node target

def Arena.Writer.apply (indent : String) (writer : Writer) : Event → Writer
  | .openUnit label title node => writer.openUnit label title (some node)
  | .text content => writer.text content
  | .pad level => writer.text (String.join (List.replicate level indent))
  | .close => writer.close
  | .share node target => writer.share node target

namespace Tree

def events (tree : Tree) : List Event :=
  tree.root.events .plain 0

/-- Every node but a program is one unit, and the text of a node follows its template. -/
def render (tree : Tree) (options : RenderOptions) : Document :=
  (tree.events.foldl (Builder.apply options.indent) {}).finish

/-- What rendering a tree leaves in an arena. -/
def store (tree : Tree) (options : RenderOptions) : Arena :=
  (tree.events.foldl (Arena.Writer.apply options.indent) {}).finish

/-- A notice for every placeholder in the markup of a tree. -/
def renderNotices (tree : Tree) : List Notice :=
  tree.events.filterMap fun
    | .openUnit _ (some typeName) _ => some (.placeholder typeName)
    | _ => none

end Tree

def Document.ofError (message : String) : Document :=
  ((({} : Builder).openUnit errorLabel none none).text message).close.finish

end SyntaxMarkup
