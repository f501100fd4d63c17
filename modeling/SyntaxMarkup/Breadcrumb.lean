import SyntaxMarkup.Json.Reader
import SyntaxMarkup.Notice
import SyntaxMarkup.Text.Blank
import SyntaxMarkup.Text.Entity

namespace SyntaxMarkup

structure Crumb where
  label : String
  url : String
  deriving DecidableEq, Repr

def Crumb.ofJson? : Json → Option Crumb
  | .array [.string label, .string url] => some ⟨label, url⟩
  | _ => none

structure Breadcrumb where
  items : List Crumb
  separator : String
  deriving DecidableEq, Repr

namespace Breadcrumb

def defaultSeparator : String := "/"

/-- The trail that a text denotes: a JSON array of crumbs, or nothing but white space. -/
def parse? (text : String) : Option (List Crumb) :=
  if Text.isBlankText text then some []
  else do
    let items ← (← Json.readDocument? text).asArray?
    items.mapM Crumb.ofJson?

/-- A trail from attributes. A text that denotes none is taken for the empty trail, and an empty
separator for none. -/
def ofAttributes (value separator : Option String) : Breadcrumb where
  items := (parse? (value.getD "")).getD []
  separator := (separator.filter (!·.isEmpty)).getD defaultSeparator

def attributeNotices (value : Option String) : List Notice :=
  match parse? (value.getD "") with
  | some _ => []
  | none => [.invalidBreadcrumb]

def activate? (breadcrumb : Breadcrumb) (index : Nat) : Option Crumb :=
  breadcrumb.items[index]?

/-- The separator in single quotes; a quote inside it has a backslash. -/
def divider (separator : String) : String :=
  "'" ++ String.ofList (separator.toList.flatMap fun c =>
    if c == '\'' then ['\\', '\''] else [c]) ++ "'"

def itemHtml (index : Nat) (last : Bool) (crumb : Crumb) : String :=
  "<li class=\"breadcrumb-item" ++ (if last then " active\" aria-current=\"page\"" else "\"") ++
    "><button data-index=\"" ++ toString index ++ "\" data-url=\"" ++
    Text.escapeQuoted crumb.url ++ "\">" ++ Text.escapeData crumb.label ++ "</button></li>"

def html (breadcrumb : Breadcrumb) : String :=
  "<nav aria-label=\"breadcrumb\" style=\"--breadcrumb-divider: " ++
    Text.escapeQuoted (divider breadcrumb.separator) ++ "\"><ol class=\"breadcrumb\">" ++
    String.join (breadcrumb.items.zipIdx.map fun (crumb, index) =>
      itemHtml index (index + 1 == breadcrumb.items.length) crumb) ++
    "</ol></nav>"

end Breadcrumb

structure BreadcrumbElement where
  value : Option String := none
  separator : Option String := none
  shown : Option Breadcrumb := none
  deriving DecidableEq, Repr

namespace BreadcrumbElement

def render (element : BreadcrumbElement) : BreadcrumbElement × List Notice :=
  ({ element with shown := some (.ofAttributes element.value element.separator) },
    Breadcrumb.attributeNotices element.value)

def withAttribute (element : BreadcrumbElement) (name : String) (value : Option String) :
    BreadcrumbElement :=
  match name with
  | "value" => { element with value }
  | "separator" => { element with separator := value }
  | _ => element

/-- Changes an attribute and renders if that makes a difference, which is told with the result. -/
def setAttribute (element : BreadcrumbElement) (name : String) (value : Option String) :
    Bool × BreadcrumbElement × List Notice :=
  let changed := element.withAttribute name value
  if changed = element then (false, element, []) else (true, changed.render)

def html (element : BreadcrumbElement) : String :=
  element.shown.elim "" Breadcrumb.html

end BreadcrumbElement

end SyntaxMarkup
