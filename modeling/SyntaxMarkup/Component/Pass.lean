import SyntaxMarkup.Component.Parser
import SyntaxMarkup.Layout.Rendering
import SyntaxMarkup.Tree.Ancestry

namespace SyntaxMarkup

structure NodeHandle where
  generation : Nat
  node : Nat
  deriving DecidableEq, Repr

structure UnitHandle where
  generation : Nat
  unit : Nat
  deriving DecidableEq, Repr

structure Click where
  node : NodeHandle
  unit : UnitHandle
  nodeType : String
  path : NodePath
  astPath : String
  arrayPath : String
  deriving DecidableEq, Repr

/-- The markup of one source text, and the tree behind it if the text has one. -/
structure Pass where
  generation : Nat
  document : Document
  outcome : Except ParseError AnnotatedTree

namespace Pass

/-- The pass for the outcome of a parse, with the notices on the way. -/
def ofOutcome (options : RenderOptions) (generation : Nat) :
    Except ParseError Tree → Pass × List Notice
  | .ok tree =>
    let document := tree.render options
    (⟨generation, document, .ok tree.annotate⟩,
      tree.renderNotices ++ [.finishedPass generation document.unitCount])
  | .error error =>
    let document := Document.ofError error.message
    (⟨generation, document, .error error⟩,
      [.failedPass generation error.message, .finishedPass generation document.unitCount])

def tree? (pass : Pass) : Option AnnotatedTree :=
  pass.outcome.toOption

def error? (pass : Pass) : Option ParseError :=
  match pass.outcome with
  | .ok _ => none
  | .error error => some error

end Pass

/-- The innermost unit with a node among a unit and at most `steps` units around it, and that
node. -/
def Document.nearestNode? (document : Document) : (steps : Nat) → (id : Nat) → Option (Nat × Nat)
  | 0, id => (document.nodeFor? id).map (id, ·)
  | steps + 1, id =>
    match document.nodeFor? id with
    | some node => some (id, node)
    | none => do document.nearestNode? steps (← (← document.unit? id).parent)

namespace Pass

/-- A click reports the nearest node around the unit. -/
def click? (pass : Pass) (separator : String) (unit : Nat) : Option Click := do
  let (owner, node) ← pass.document.nearestNode? pass.document.unitCount unit
  let tree ← pass.tree?
  let path := tree.path node
  return {
    node := ⟨pass.generation, node⟩
    unit := ⟨pass.generation, owner⟩
    nodeType := tree.typeName node
    path
    astPath := path.astPath separator
    arrayPath := path.arrayPath }

end Pass

end SyntaxMarkup
