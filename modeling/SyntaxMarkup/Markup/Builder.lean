import SyntaxMarkup.Markup.Fragment

namespace SyntaxMarkup

/-- A unit that is still open, with what it holds so far, the last first. -/
structure OpenUnit where
  id : Nat
  label : String
  title : Option String
  node : Option Nat
  children : List Fragment

/-- Markup under construction. -/
structure Builder where
  stack : List OpenUnit := []
  roots : List Fragment := []
  next : Nat := 0
  nodeUnits : NodeUnits := ∅

namespace OpenUnit

def close (unit : OpenUnit) : Fragment :=
  .unit unit.id unit.label unit.title unit.node unit.children.reverse

end OpenUnit

namespace Builder

def update (builder : Builder) (change : List Fragment → List Fragment) : Builder :=
  match builder.stack with
  | [] => { builder with roots := change builder.roots }
  | unit :: others =>
    { builder with stack := { unit with children := change unit.children } :: others }

def openUnit (builder : Builder) (label : String) (title : Option String) (node : Option Nat) :
    Builder :=
  { builder with
    stack := ⟨builder.next, label, title, node, []⟩ :: builder.stack
    next := builder.next + 1
    nodeUnits := match node with
      | some node => builder.nodeUnits.insert node builder.next
      | none => builder.nodeUnits }

/-- Adds text to fragments, the newest first: text next to text is one fragment. -/
def appendText (text : String) : List Fragment → List Fragment
  | .text before :: rest => .text (before ++ text) :: rest
  | fragments => .text text :: fragments

/-- Writes text; the empty text leaves no trace. -/
def text (builder : Builder) (text : String) : Builder :=
  if text.isEmpty then builder else builder.update (appendText text)

def close (builder : Builder) : Builder :=
  match builder.stack with
  | [] => builder
  | unit :: others => { builder with stack := others }.update (unit.close :: ·)

/-- Lets a unit show a node, in place of any other unit that did. -/
def assign (builder : Builder) (node unit : Nat) : Builder :=
  { builder with nodeUnits := builder.nodeUnits.insert node unit }

def unitFor? (builder : Builder) (node : Nat) : Option Nat :=
  builder.nodeUnits[node]?

/-- Lets the unit of one node, if it has one, show another node as well. -/
def share (builder : Builder) (node target : Nat) : Builder :=
  match builder.unitFor? target with
  | some unit => builder.assign node unit
  | none => builder

/-- The fragments once all open units are closed, each into the one around it; `inner` is the unit
that was closed last. -/
def closeAll (inner : Option Fragment) : List OpenUnit → List Fragment → List Fragment
  | [], roots => inner.toList ++ roots
  | unit :: others, roots =>
    closeAll (some { unit with children := inner.toList ++ unit.children }.close) others roots

def finish (builder : Builder) : Document :=
  ⟨(closeAll none builder.stack builder.roots).reverse, builder.nodeUnits⟩

end Builder

end SyntaxMarkup
