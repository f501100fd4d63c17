namespace SyntaxMarkup

inductive Notice where
  /-- A node type without a template was written as a placeholder. -/
  | placeholder (typeName : String)
  | noTemplate (typeName : String)
  /-- The text of an attribute names no source type. -/
  | ignoredSourceType (message : String)
  | failedPass (generation : Nat) (message : String)
  | finishedPass (generation units : Nat)
  | click (unit : Nat) (path : String)
  /-- What the JSON library says about the value is left out. -/
  | invalidBreadcrumb
  | rendered (path : String)
  | checked (path : String) (nodes unknown : Nat)
  deriving DecidableEq, Repr

namespace Notice

def level : Notice → String
  | placeholder _ | noTemplate _ | ignoredSourceType _ | failedPass _ _ | invalidBreadcrumb =>
    "WARN"
  | finishedPass _ _ | click _ _ => "DEBUG"
  | rendered _ | checked _ _ _ => "INFO"

def message : Notice → String
  | placeholder typeName =>
    "no template for node type `" ++ typeName ++ "`, rendering placeholder"
  | noTemplate typeName => "no template for node type `" ++ typeName ++ "`"
  | ignoredSourceType message => "ignoring source-type attribute: " ++ message
  | failedPass generation message =>
    "render pass " ++ toString generation ++ " failed to parse: " ++ message
  | finishedPass generation units =>
    "render pass " ++ toString generation ++ " produced " ++ toString units ++ " units"
  | click unit path => "click on unit " ++ toString unit ++ " resolved to " ++ path
  | invalidBreadcrumb => "Invalid breadcrumb value"
  | rendered path => "Rendered: " ++ path
  | checked path nodes unknown =>
    "OK: " ++ path ++ " (" ++ toString nodes ++ " nodes, " ++ toString unknown ++
      " without a template)"

def line (notice : Notice) : String :=
  notice.level ++ " " ++ notice.message

end Notice

end SyntaxMarkup
