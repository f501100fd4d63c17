import SyntaxMarkup.Markup.Html

namespace SyntaxMarkup

namespace Arena

/-- Markup in a unit or at the top; a unit there is told by its number. -/
inductive Entry where
  | text (content : String)
  | unit (id : Nat)
  deriving DecidableEq, Repr

/-- A unit as it is stored, with the number of the one around it. -/
structure Cell where
  label : String
  title : Option String
  parent : Option Nat
  children : Array Entry
  deriving DecidableEq, Repr

def Entry.unit? : Entry → Option Nat
  | .text _ => none
  | .unit id => some id

def Cell.shownTitle (cell : Cell) : String :=
  cell.title.getD cell.label

/-- What is done at each part of markup on the way through it. -/
structure Visitor (σ : Type) where
  text : String → σ → σ
  enter : Nat → Cell → σ → σ
  leave : σ → σ

/-- Writes the text alone. -/
def textVisitor : Visitor String where
  text content out := out ++ content
  enter _ _ out := out
  leave out := out

/-- Writes HTML. -/
def htmlVisitor : Visitor String where
  text content out := out ++ Text.escapeData content
  enter id cell out := out ++ Fragment.startTag id cell.label cell.shownTitle
  leave out := out ++ "</span>"

/-- Notes the units in the order in which they are met. -/
def idVisitor : Visitor (List Nat) where
  text _ ids := ids
  enter id _ ids := ids ++ [id]
  leave ids := ids

end Arena

/-- A document whose units lie in one array, a unit at its number. -/
structure Arena where
  cells : Array Arena.Cell := #[]
  roots : Array Arena.Entry := #[]
  nodeUnits : NodeUnits := ∅
  unitNodes : Std.TreeMap Nat Nat := ∅

namespace Arena

def unit? (arena : Arena) (id : Nat) : Option Cell :=
  arena.cells[id]?

def unitCount (arena : Arena) : Nat :=
  arena.cells.size

/-- The entries of a unit, or those at the top. -/
def entriesIn (arena : Arena) : Option Nat → Array Entry
  | none => arena.roots
  | some id => (arena.unit? id).elim #[] Cell.children

/-- The units directly inside a unit, or those at the top. -/
def unitsIn (arena : Arena) (container : Option Nat) : Array Nat :=
  (arena.entriesIn container).filterMap Entry.unit?

/-- Goes through an entry by the numbers that are stored. There is no result if this has no end; a
number without a unit is passed over. -/
def walk {σ : Type} (arena : Arena) (visitor : Visitor σ) (entry : Entry) (state : σ) : Option σ :=
  match entry with
  | .text content => some (visitor.text content state)
  | .unit id =>
    match arena.unit? id with
    | none => some state
    | some cell => do
      let inside ← cell.children.foldlM (fun state entry => arena |>.walk visitor entry state)
        (visitor.enter id cell state)
      return visitor.leave inside
partial_fixpoint

def walkAll {σ : Type} (arena : Arena) (visitor : Visitor σ) (entries : Array Entry) (state : σ) :
    Option σ :=
  entries.foldlM (fun state entry => arena.walk visitor entry state) state

def text (arena : Arena) : Option String :=
  arena.walkAll textVisitor arena.roots ""

def unitText (arena : Arena) (id : Nat) : Option String :=
  arena.walkAll textVisitor (arena.entriesIn (some id)) ""

def html (arena : Arena) (generation : Nat) (stylesheet : Option String) : Option String := do
  let inside ← arena.walkAll htmlVisitor arena.roots
    (stylesheet.elim "" Document.stylesheetLink ++
      "<code class=\"squirrel-pie\" data-generation=\"" ++ toString generation ++ "\">")
  return inside ++ "</code>"

/-- The units in the order of the document. -/
def ids (arena : Arena) : Option (List Nat) :=
  arena.walkAll idVisitor arena.roots []

def unitFor? (arena : Arena) (node : Nat) : Option Nat :=
  arena.nodeUnits[node]?

def nodeFor? (arena : Arena) (unit : Nat) : Option Nat :=
  arena.unitNodes[unit]?

def associationCount (arena : Arena) : Nat :=
  arena.unitNodes.size

def nodeCount (arena : Arena) : Nat :=
  arena.nodeUnits.size

/-- An arena under construction, with the numbers of the open units, the innermost last. -/
structure Writer where
  arena : Arena := {}
  around : Array Nat := #[]

namespace Writer

/-- Changes the entries of the innermost open unit, or those at the top if none is open. -/
def update (writer : Writer) (change : Array Entry → Array Entry) : Writer :=
  match writer.around.back? with
  | some id =>
    { writer with arena.cells := writer.arena.cells.modify id fun cell =>
        { cell with children := change cell.children } }
  | none => { writer with arena.roots := change writer.arena.roots }

/-- Notes that a unit is the one of a node, and the node the one of the unit. -/
def associate (writer : Writer) (node unit : Nat) : Writer :=
  { writer with
    arena.nodeUnits := writer.arena.nodeUnits.insert node unit
    arena.unitNodes := writer.arena.unitNodes.insert unit node }

/-- A new cell, which knows its parent but stands nowhere yet. -/
def addCell (writer : Writer) (label : String) (title : Option String) : Writer :=
  { writer with arena.cells := writer.arena.cells.push ⟨label, title, writer.around.back?, #[]⟩ }

def openUnit (writer : Writer) (label : String) (title : Option String) (node : Option Nat) :
    Writer :=
  let id := writer.arena.cells.size
  let placed := (writer.addCell label title).update (·.push (.unit id))
  let known := node.elim placed (placed.associate · id)
  { known with around := known.around.push id }

def appendText (text : String) (entries : Array Entry) : Array Entry :=
  match entries.back? with
  | some (.text before) => entries.pop.push (.text (before ++ text))
  | _ => entries.push (.text text)

def text (writer : Writer) (text : String) : Writer :=
  if text.isEmpty then writer else writer.update (appendText text)

def close (writer : Writer) : Writer :=
  { writer with around := writer.around.pop }

/-- Lets a unit show a node; the unit keeps its own node. -/
def assign (writer : Writer) (node unit : Nat) : Writer :=
  { writer with arena.nodeUnits := writer.arena.nodeUnits.insert node unit }

def unitFor? (writer : Writer) (node : Nat) : Option Nat :=
  writer.arena.unitFor? node

def share (writer : Writer) (node target : Nat) : Writer :=
  match writer.unitFor? target with
  | some unit => writer.assign node unit
  | none => writer

def finish (writer : Writer) : Arena :=
  writer.arena

end Writer

end Arena

end SyntaxMarkup
