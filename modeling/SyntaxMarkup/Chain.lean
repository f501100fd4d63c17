import SyntaxMarkup.Json.Printer

namespace SyntaxMarkup

inductive Segment where
  | plain (label : String)
  | call (label : String) (options : Json)

namespace Segment

def label : Segment → String
  | plain label => label
  | call label _ => label

/-- A name, or an object with the name and the options. -/
def toJson : Segment → Json
  | plain label => .string label
  | call label options => .object [("name", .string label), ("options", options)]

def withOptions (options : Json) : Segment → Segment
  | plain label => call label options
  | call label old => call label old

end Segment

structure Chain where
  segments : List Segment := []

namespace Chain

def append (chain : Chain) (name : String) : Chain :=
  ⟨chain.segments ++ [.plain name]⟩

/-- Gives options to the last segment unless it has some. -/
def withOptions (chain : Chain) (options : Json) : Chain :=
  match chain.segments.getLast? with
  | some last => ⟨chain.segments.dropLast ++ [last.withOptions options]⟩
  | none => chain

def clear (_ : Chain) : Chain := {}

def get? (chain : Chain) (index : Nat) : Option Segment :=
  chain.segments[index]?

def size (chain : Chain) : Nat :=
  chain.segments.length

def names (chain : Chain) : List String :=
  chain.segments.map Segment.label

def path (chain : Chain) : String :=
  ".".intercalate chain.names

def display (chain : Chain) : String :=
  (Json.array (chain.segments.map Segment.toJson)).pretty 0

end Chain

end SyntaxMarkup
