import Std.Data.TreeMap

namespace SyntaxMarkup

/-- Markup: text, and labelled units that hold further markup. -/
inductive Fragment where
  | text (content : String)
  | unit (id : Nat) (label : String) (title : Option String) (node : Option Nat)
      (children : List Fragment)

structure MarkupUnit where
  id : Nat
  label : String
  title : Option String
  node : Option Nat
  parent : Option Nat
  children : List Fragment

/-- The title of a unit falls back to its label. -/
def MarkupUnit.shownTitle (unit : MarkupUnit) : String :=
  unit.title.getD unit.label

namespace Fragment

def unitId? : Fragment → Option Nat
  | .text _ => none
  | .unit id _ _ _ _ => some id

mutual

def content : Fragment → String
  | .text content => content
  | .unit _ _ _ _ children => contents children

def contents : List Fragment → String
  | [] => ""
  | fragment :: rest => fragment.content ++ contents rest

end

mutual

/-- The units in a fragment, each before those inside it. -/
def units (parent : Option Nat) : Fragment → List MarkupUnit
  | .text _ => []
  | .unit id label title node children =>
    ⟨id, label, title, node, parent, children⟩ :: unitsOf (some id) children

def unitsOf (parent : Option Nat) : List Fragment → List MarkupUnit
  | [] => []
  | fragment :: rest => fragment.units parent ++ unitsOf parent rest

end

end Fragment

abbrev NodeUnits := Std.TreeMap Nat Nat

structure Document where
  roots : List Fragment
  /-- The unit of each node that has one; several nodes may share a unit. -/
  nodeUnits : NodeUnits

namespace Document

def text (document : Document) : String :=
  Fragment.contents document.roots

def units (document : Document) : List MarkupUnit :=
  Fragment.unitsOf none document.roots

def unitCount (document : Document) : Nat :=
  document.units.length

def unit? (document : Document) (id : Nat) : Option MarkupUnit :=
  document.units[id]?

def unitText (document : Document) (id : Nat) : String :=
  (document.unit? id).elim "" fun unit => Fragment.contents unit.children

def topLevelUnits (document : Document) : List Nat :=
  document.roots.filterMap Fragment.unitId?

def unitFor? (document : Document) (node : Nat) : Option Nat :=
  document.nodeUnits[node]?

def nodeFor? (document : Document) (unit : Nat) : Option Nat :=
  (document.unit? unit).bind MarkupUnit.node

def associationCount (document : Document) : Nat :=
  document.units.countP (·.node.isSome)

def nodeCount (document : Document) : Nat :=
  document.nodeUnits.size

end Document

def MarkupUnit.childUnits (unit : MarkupUnit) : List Nat :=
  unit.children.filterMap Fragment.unitId?

end SyntaxMarkup
