import SyntaxMarkup.Component.Pass
import SyntaxMarkup.Markup.Html
import SyntaxMarkup.Text.Dedent

namespace SyntaxMarkup

structure Attributes where
  value : String := ""
  sourceType : SourceType := .module
  stylesheet : Option String := none
  deriving DecidableEq, Repr

/-- Sets or removes an attribute. Text that names no source type changes nothing. -/
def Attributes.set (attributes : Attributes) (name : String) (value : Option String) :
    Attributes × List Notice :=
  match name with
  | "value" => ({ attributes with value := value.getD "" }, [])
  | "source-type" =>
    match value.elim (.ok .module) SourceType.ofText with
    | .ok sourceType => ({ attributes with sourceType }, [])
    | .error name => (attributes, [.ignoredSourceType (SourceType.unknownMessage name)])
  | "stylesheet" => ({ attributes with stylesheet := value }, [])
  | _ => (attributes, [])

/-- Shows the source text in its attributes as markup. A change of an attribute starts a render
pass, and handles of earlier passes resolve to nothing. -/
structure Component where
  options : RenderOptions := {}
  attributes : Attributes := {}
  /-- The number of the last pass; zero before the first one. -/
  generation : Nat := 0
  pass : Option Pass := none

/-- A component after an operation, what the operation gave, the notices on the way and the calls
of the parser. -/
structure Step (α : Type) where
  component : Component
  result : α
  notices : List Notice := []
  parsed : List (String × ParseOptions) := []

namespace Component

def render (parse : Parser) (component : Component) : Step Unit :=
  let generation := component.generation + 1
  let options : ParseOptions := { sourceType := component.attributes.sourceType }
  let (pass, notices) := Pass.ofOutcome component.options generation
    (parse component.attributes.value options)
  { component := { component with generation, pass := some pass }
    result := ()
    notices
    parsed := [(component.attributes.value, options)] }

/-- Changes an attribute and renders if that makes a difference, which is the result. -/
def setAttribute (parse : Parser) (component : Component) (name : String)
    (value : Option String) : Step Bool :=
  let (attributes, notices) := component.attributes.set name value
  if attributes = component.attributes then { component, result := false, notices }
  else
    let step := { component with attributes }.render parse
    { step with result := true, notices := notices ++ step.notices }

/-- Takes the source text from the content of the component, without its indentation. -/
def setContent (parse : Parser) (component : Component) (text : String) : Step Bool :=
  component.setAttribute parse "value" (some (Text.dedent text))

/-- Renders if there has been no pass, which is the result. -/
def connect (parse : Parser) (component : Component) : Step Bool :=
  match component.pass with
  | some _ => { component, result := false }
  | none => { component.render parse with result := true }

def document? (component : Component) : Option Document :=
  component.pass.map Pass.document

def tree? (component : Component) : Option AnnotatedTree :=
  component.pass.bind Pass.tree?

def error? (component : Component) : Option ParseError :=
  component.pass.bind Pass.error?

def html (component : Component) : String :=
  component.pass.elim "" fun pass =>
    pass.document.html pass.generation component.attributes.stylesheet

/-- The last pass if it is the one that a handle belongs to. -/
def current? (component : Component) (generation : Nat) : Option Pass :=
  component.pass.filter (·.generation == generation)

def unitHandle? (component : Component) (unit : Nat) : Option UnitHandle := do
  let pass ← component.pass
  let _ ← pass.document.unit? unit
  return ⟨pass.generation, unit⟩

def nodeForUnit? (component : Component) (handle : UnitHandle) : Option NodeHandle := do
  let pass ← component.current? handle.generation
  return ⟨pass.generation, ← pass.document.nodeFor? handle.unit⟩

def unitForNode? (component : Component) (handle : NodeHandle) : Option UnitHandle := do
  let pass ← component.current? handle.generation
  return ⟨pass.generation, ← pass.document.unitFor? handle.node⟩

def node? (component : Component) (handle : NodeHandle) : Option (Node Nat) := do
  let tree ← (← component.current? handle.generation).tree?
  tree.nodes[handle.node]?

def path? (component : Component) (handle : NodeHandle) : Option NodePath := do
  let tree ← (← component.current? handle.generation).tree?
  let _ ← tree.nodes[handle.node]?
  return tree.path handle.node

def click? (component : Component) (handle : UnitHandle) : Option Click := do
  let pass ← component.current? handle.generation
  pass.click? component.options.pathSeparator handle.unit

def clickNotices (component : Component) (handle : UnitHandle) : List Notice :=
  ((component.click? handle).map fun click => Notice.click handle.unit click.arrayPath).toList

end Component

end SyntaxMarkup
