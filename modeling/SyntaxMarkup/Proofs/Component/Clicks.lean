import SyntaxMarkup.Proofs.Component.Handles
import SyntaxMarkup.Proofs.Markup.Tags

namespace SyntaxMarkup

/-- The type in the heading of a unit: its label, or its title if the type is not known. -/
def MarkupUnit.shownType (unit : MarkupUnit) : String :=
  if unit.label = unknownLabel then unit.shownTitle else unit.label

theorem MarkupUnit.shownType_eq {unit : MarkupUnit} {kind : Kind}
    (heading : (unit.label, unit.title) = kind.heading) : unit.shownType = kind.typeName := by
  have label : unit.label = kind.heading.1 := congrArg Prod.fst heading
  have title : unit.title = kind.heading.2 := congrArg Prod.snd heading
  unfold shownType shownTitle
  rw [label, title]
  unfold Kind.heading
  split
  next => exact if_pos rfl
  next => split <;> rfl

namespace Component

variable {component : Component}

/-- What a click on a unit gives, and where each part of that leads. -/
structure RoundTrips (component : Component) (tree : AnnotatedTree) (document : Document)
    (u : Nat) (click : Click) : Prop where
  resolves : component.click? ⟨component.generation, u⟩ = some click
  unit : click.unit = ⟨component.generation, u⟩
  node : component.nodeForUnit? click.unit = some click.node
  back : component.unitForNode? click.node = some click.unit
  path : component.path? click.node = some click.path
  nodeType : (component.node? click.node).map Node.typeName = some click.nodeType
  last : click.path.typePath.getLast? = some click.nodeType
  first : click.path.typePath.head? = some tree.tree.root.typeName
  astPath : click.astPath = component.options.pathSeparator.intercalate click.path.typePath
  arrayPath : click.arrayPath = ".".intercalate click.path.fieldPath
  heading : ∃ unit, document.unit? u = some unit ∧ unit.shownType = click.nodeType

theorem Displays.roundTrips {tree : Tree} {pass : Pass} (hd : component.Displays tree pass)
    {u : Nat} (hk : u < (tree.render component.options).unitCount) :
    ∃ click, component.RoundTrips tree.annotate (tree.render component.options) u click := by
  have hr := hd.regular
  obtain ⟨unit, hshown, node, hm, ho, back, heading⟩ :=
    Tree.exists_node_of_unit hr component.options hk
  have hf := Tree.node?_id hm
  have inside := Tree.id_lt_size hm
  have hn := Tree.typeName_annotate hf
  refine ⟨tree.annotate.click component.generation component.options.pathSeparator u node.id, ?_⟩
  constructor
  case resolves =>
    rw [hd.click?_eq, Document.nearestNode?_of_nodeFor? ho, Option.map_some]
  case unit => rfl
  case node =>
    refine (hd.nodeForUnit?_eq u).trans ?_
    rw [ho]
    rfl
  case back =>
    refine (hd.unitForNode?_eq node.id).trans ?_
    rw [back]
    rfl
  case path =>
    refine (hd.path?_eq node.id).trans ?_
    rw [hf]
    rfl
  case nodeType =>
    refine (congrArg (Option.map Node.typeName) (hd.node?_eq node.id)).trans ?_
    rw [hf, Option.map_some, ← hn]
    rfl
  case last => exact Tree.getLast?_typePath hr inside
  case first => exact Tree.head?_typePath hr inside
  case astPath => rfl
  case arrayPath => rfl
  case heading => exact ⟨unit, hshown, (MarkupUnit.shownType_eq heading).trans hn.symm⟩

theorem Displays.html_eq {tree : Tree} {pass : Pass} (hd : component.Displays tree pass) :
    component.html = (tree.render component.options).html component.generation
      component.attributes.stylesheet := by
  obtain ⟨current, -⟩ := Option.filter_eq_some_iff.mp hd.current
  rw [Component.html_eq current, hd.document_eq, hd.generation_eq]

/-- After any operations, if the last parse gave a tree: the HTML text names the generation and the
units of the document by their numbers, and a click on any of them gives that unit with its node,
from which the look-ups lead back to the unit and give the path that the click tells. Its types
start with that of the root and end with that of the node, which is the type that the unit shows.
If the last parse failed, a click gives nothing. -/
theorem clicks_after {parse : Parser} (lowers : parse.Lowers) (options : RenderOptions)
    (operations : List Operation) :
    let component := (after parse options operations).component
    (∀ tree document, component.tree? = some tree → component.document? = some document →
      Html.values "data-generation" component.html = [toString component.generation] ∧
      Html.values "data-unit" component.html = (List.range document.unitCount).map toString ∧
      ∀ u < document.unitCount, ∃ click, component.RoundTrips tree document u click) ∧
    ∀ error, component.error? = some error → ∀ handle, component.click? handle = none := by
  intro component
  have hc := coherent_after parse options operations
  constructor
  · intro tree document hp hr
    obtain ⟨tree, pass, rfl, rfl, hd⟩ := hc.displays lowers hp hr
    refine ⟨?_, ?_, fun u hk => hd.roundTrips hk⟩
    · rw [hd.html_eq, Document.values_generation]
    · rw [hd.html_eq, Document.values_unit, ← Tree.map_id_units, List.map_map]
      rfl
  · intro error hfail handle
    obtain ⟨pass, current, hfail⟩ := Option.bind_eq_some_iff.mp hfail
    have ht : component.tree? = none := by
      rw [tree?, current, Option.bind_some, Pass.tree?]
      unfold Pass.error? at hfail
      split at hfail
      next => cases hfail
      next other eq => rw [eq]; rfl
    exact (hc.blind_of_tree? ht handle.generation handle.unit).click

/-- A first pass that failed and a second one with a statement and a name in it. -/
theorem clicks_after_second_pass :
    sampleParser.Lowers ∧
    let component := (after sampleParser {} [.connect, .setContent "  a;"]).component
    Html.values "data-generation" component.html = ["2"] ∧
      Html.values "data-unit" component.html = ["0", "1"] ∧
      ∃ click, component.click? ⟨2, 1⟩ = some click ∧
        component.unitForNode? click.node = some ⟨2, 1⟩ ∧
        component.path? click.node = some click.path ∧
        click.path.typePath.head? = some "Program" ∧
        click.path.typePath.getLast? = some click.nodeType := by
  have hl : sampleParser.Lowers := Parser.lowers_ofJson _
  obtain ⟨hp, -⟩ := clicks_after hl {} [.connect, .setContent "  a;"]
  refine ⟨hl, ?_⟩
  intro component
  have hn : component.generation = 2 := by decide +kernel
  obtain ⟨tree, hshown, root⟩ := Option.map_eq_some_iff.mp
    (by decide +kernel : component.tree?.map (·.tree.root.typeName) = some "Program")
  obtain ⟨document, hr, count⟩ := Option.map_eq_some_iff.mp
    (by decide +kernel : component.document?.map Document.unitCount = some 2)
  obtain ⟨generation, units, clicks⟩ := hp tree document hshown hr
  rw [show Component.generation _ = 2 from hn] at generation
  rw [count] at units
  obtain ⟨click, hres⟩ := clicks 1 (by omega)
  have unit := hres.unit
  have resolves := hres.resolves
  rw [show Component.generation _ = 2 from hn] at unit resolves
  refine ⟨generation, units, click, resolves, unit ▸ hres.back, hres.path, ?_, hres.last⟩
  rw [hres.first, root]

end Component

end SyntaxMarkup
