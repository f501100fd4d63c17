import SyntaxMarkup.Tree.Form

namespace SyntaxMarkup

structure Described where
  value : Json
  tree : Except TreeError (Node Unit)

/-- A value that a field holds, with the tree that it describes, and with its items if it is a
list. -/
structure Reading extends Described where
  items : Option (List Described)

namespace NodeObject

/-- The reading of a field; null counts as absent. -/
def reading? (readings : List (String × Reading)) (name : String) : Option Reading :=
  (readings.lookup name).filter (!·.value.isNull)

def child (object : NodeObject) (name : String) (demand : Demand) (part : Described) :
    Except TreeError (Node Unit) :=
  if part.value.isNode then part.tree else .error (object.invalid name demand)

def items (object : NodeObject) (name : String) (reading : Reading) :
    Except TreeError (List Described) :=
  match reading.items with
  | some items => .ok items
  | none => .error (object.invalid name .list)

/-- A slot of a list with holes, which are null. -/
def sparseChild (object : NodeObject) (name : String) (part : Described) :
    Except TreeError (Option (Node Unit)) :=
  if part.value.isNull then .ok none else some <$> object.child name .nodes part

def slot (object : NodeObject) (readings : List (String × Reading)) (name : String)
    (arity : Arity) : Except TreeError (Slot (Node Unit)) :=
  match reading? readings name, arity with
  | none, .maybe => .ok (.maybe none)
  | none, _ => .error (object.missing name)
  | some reading, .one => .one <$> object.child name .node reading.toDescribed
  | some reading, .maybe => (.maybe <| some ·) <$> object.child name .node reading.toDescribed
  | some reading, .many => do
    let items ← object.items name reading
    return .many (← items.mapM (object.child name .nodes))
  | some reading, .sparse => do
    let items ← object.items name reading
    return .sparse (← items.mapM (object.sparseChild name))

def childFields (object : NodeObject) (readings : List (String × Reading)) :
    Except TreeError (List (Field (Node Unit))) :=
  object.form.children.mapM fun (name, arity) => .mk name <$> object.slot readings name arity

def node (object : NodeObject) (readings : List (String × Reading)) :
    Except TreeError (Node Unit) :=
  if object.form.childrenFirst then do
    let fields ← object.childFields readings
    let kind ← object.form.kind
    return .mk () kind object.span? fields
  else do
    let kind ← object.form.kind
    let fields ← object.childFields readings
    return .mk () kind object.span? fields

end NodeObject

mutual

/-- Reads a value from the inside out. -/
def Json.reading : Json → Reading
  | .object members =>
    { value := .object members
      tree := match (Json.object members).asNode? with
        | some described => described.node (readMembers members)
        | none => .error .notANode
      items := none }
  | .array items =>
    { value := .array items, tree := .error .notANode, items := some (readItems items) }
  | value => { value, tree := .error .notANode, items := none }

def Json.readMembers : List (String × Json) → List (String × Reading)
  | [] => []
  | (name, value) :: rest => (name, value.reading) :: readMembers rest

def Json.readItems : List Json → List Described
  | [] => []
  | item :: rest => item.reading.toDescribed :: readItems rest

end

/-- What a value describes follows from what its parts describe on their own. Of several faults the
first in reading order is reported. -/
def Tree.ofJson (value : Json) : Except TreeError Tree :=
  Tree.mk <$> value.reading.tree

end SyntaxMarkup
