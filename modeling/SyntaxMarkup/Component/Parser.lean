import SyntaxMarkup.Tree.Lowering

namespace SyntaxMarkup

inductive ParseError where
  | rejected (message : String) (position : Option Nat)
  /-- The parser's answer is no syntax tree. -/
  | malformed (error : TreeError)
  deriving DecidableEq, Repr

def TreeError.malformedMessage (error : TreeError) : String :=
  "Malformed syntax tree: " ++ error.message

def ParseError.message : ParseError → String
  | rejected message _ => message
  | malformed error => error.malformedMessage

/-- A parser gives the same tree or error for the same text and options. -/
abbrev Parser := String → ParseOptions → Except ParseError Tree

/-- The parser whose trees are those of the JSON values that describe a text. -/
def Parser.ofJson (describe : String → ParseOptions → Except ParseError Json) : Parser :=
  fun source options => do
    (Tree.ofJson (← describe source options)).mapError .malformed

end SyntaxMarkup
