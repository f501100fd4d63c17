import SyntaxMarkup.Json.Printer
import SyntaxMarkup.Tree.Node

namespace SyntaxMarkup

inductive Demand where
  | text
  | node
  | list
  | nodes
  | regex
  | template
  | variableKind
  | propertyKind
  | methodKind
  | unaryOperator
  | updateOperator
  | binaryOperator
  | logicalOperator
  | assignmentOperator
  deriving DecidableEq, Repr

def Demand.phrase : Demand → String
  | text => "a string"
  | node => "a node"
  | list => "an array"
  | nodes => "an array of nodes"
  | regex => "a \x7b pattern, flags \x7d object"
  | template => "a \x7b raw, cooked \x7d object"
  | variableKind => "var, let or const"
  | propertyKind => "init, get or set"
  | methodKind => "a method kind"
  | unaryOperator => "a unary operator"
  | updateOperator => "++ or --"
  | binaryOperator => "a binary operator"
  | logicalOperator => "a logical operator"
  | assignmentOperator => "an assignment operator"

inductive TreeError where
  | notANode
  | missingField (typeName field : String)
  | invalidField (typeName field : String) (demand : Demand)
  deriving DecidableEq, Repr

def TreeError.message : TreeError → String
  | notANode => "expected a node object with a string `type`"
  | missingField typeName field => typeName ++ " is missing required field `" ++ field ++ "`"
  | invalidField typeName field demand =>
    typeName ++ "." ++ field ++ " is not " ++ demand.phrase

structure NodeObject where
  typeName : String
  members : Json.Members

/-- A value describes a node if it is an object whose `type` is a string. -/
def Json.asNode? (value : Json) : Option NodeObject :=
  match value with
  | .object members =>
    match members.lookup "type" with
    | some (.string typeName) => some ⟨typeName, members⟩
    | _ => none
  | _ => none

def Json.isNode (value : Json) : Bool :=
  value.asNode?.isSome

namespace NodeObject

/-- The value of a field; null counts as absent. -/
def field? (object : NodeObject) (name : String) : Option Json :=
  (object.members.lookup name).filter (!·.isNull)

def missing (object : NodeObject) (name : String) : TreeError :=
  .missingField object.typeName name

def invalid (object : NodeObject) (name : String) (demand : Demand) : TreeError :=
  .invalidField object.typeName name demand

def require (object : NodeObject) (name : String) : Except TreeError Json :=
  match object.field? name with
  | some value => .ok value
  | none => .error (object.missing name)

def text (object : NodeObject) (name : String) : Except TreeError String := do
  match (← object.require name).asString? with
  | some text => return text
  | none => throw (object.invalid name .text)

/-- A field that counts only as a string. -/
def text? (object : NodeObject) (name : String) : Option String :=
  (object.field? name).bind Json.asString?

def flag (object : NodeObject) (name : String) : Bool :=
  ((object.field? name).bind Json.asBool?).getD false

def word {α : Type} [Vocabulary α] (object : NodeObject) (name : String) (demand : Demand) :
    Except TreeError α := do
  match Vocabulary.ofWord? (← object.text name) with
  | some word => return word
  | none => throw (object.invalid name demand)

def span? (object : NodeObject) : Option Span := do
  return ⟨← (← object.field? "start").asNat?, ← (← object.field? "end").asNat?⟩

end NodeObject

end SyntaxMarkup
