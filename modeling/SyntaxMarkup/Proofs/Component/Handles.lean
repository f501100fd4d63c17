import SyntaxMarkup.Proofs.Component.Runs
import SyntaxMarkup.Proofs.Layout.Lookups
import SyntaxMarkup.Proofs.Tree.Ancestors

namespace SyntaxMarkup

/-- Whether every tree of a parser is lowered from some JSON value, as all trees of the program
are. -/
def Parser.Lowers (parse : Parser) : Prop :=
  ∀ source options tree, parse source options = .ok tree →
    ∃ value, Tree.ofJson value = .ok tree

theorem Parser.lowers_ofJson (describe : String → ParseOptions → Except ParseError Json) :
    (Parser.ofJson describe).Lowers := by
  intro source options tree h
  obtain ⟨value, -, h⟩ := bind_eq_ok h
  refine ⟨value, ?_⟩
  cases hj : Tree.ofJson value with
  | ok other =>
    rw [hj] at h
    cases h
    rfl
  | error error =>
    rw [hj] at h
    cases h

/-- What a click tells that found a node of a unit. -/
def AnnotatedTree.click (tree : AnnotatedTree) (generation : Nat) (separator : String)
    (unit node : Nat) : Click where
  node := ⟨generation, node⟩
  unit := ⟨generation, unit⟩
  nodeType := tree.typeName node
  path := tree.path node
  astPath := (tree.path node).astPath separator
  arrayPath := (tree.path node).arrayPath

namespace Component

/-- Whether a number leads to nothing in a generation, be it taken for a unit or for a node. -/
structure Blind (component : Component) (generation number : Nat) : Prop where
  click : component.click? ⟨generation, number⟩ = none
  nodeForUnit : component.nodeForUnit? ⟨generation, number⟩ = none
  unitForNode : component.unitForNode? ⟨generation, number⟩ = none
  node : component.node? ⟨generation, number⟩ = none
  path : component.path? ⟨generation, number⟩ = none

variable {component : Component} {generation : Nat}

theorem blind_of_current? (none : component.current? generation = none) (number : Nat) :
    component.Blind generation number where
  click := by rw [click?, none]; rfl
  nodeForUnit := by rw [nodeForUnit?, none]; rfl
  unitForNode := by rw [unitForNode?, none]; rfl
  node := by rw [node?, none]; rfl
  path := by rw [path?, none]; rfl

/-- A pass that failed leads nowhere: its document is that of an error. -/
theorem blind_of_failed {pass : Pass} (current : component.current? generation = some pass)
    (hfail : pass.tree? = none) {message : String} (document : pass.document = .ofError message)
    (number : Nat) : component.Blind generation number := by
  constructor
  · rw [click?, current]
    cases nearest : pass.document.nearestNode? pass.document.unitCount number <;>
      simp [Pass.click?, nearest, hfail]
  · rw [nodeForUnit?, current]
    simp [document, Document.nodeFor?_ofError]
  · rw [unitForNode?, current]
    simp [document, Document.unitFor?_ofError]
  · rw [node?, current]
    simp [hfail]
  · rw [path?, current]
    simp [hfail]

section Coherent

variable {parse : Parser} {options : RenderOptions} {passes : Nat}

theorem Coherent.passes_pos (hc : component.Coherent parse options passes) {pass : Pass}
    (current : component.pass = some pass) : 0 < passes := by
  rcases Nat.eq_zero_or_pos passes with none | some
  · cases (hc.unrendered none).symm.trans current
  · exact some

theorem Coherent.generation_pass (hc : component.Coherent parse options passes)
    {pass : Pass} (current : component.pass = some pass) :
    pass.generation = component.generation := by
  obtain ⟨other, current', hn⟩ := hc.exists_pass (hc.passes_pos current)
  cases current.symm.trans current'
  exact hn

theorem Coherent.current?_eq_none (hc : component.Coherent parse options passes)
    (other : component.pass = none ∨ generation ≠ component.generation) :
    component.current? generation = none := by
  cases current : component.pass with
  | none => rw [current?, current, Option.filter_none]
  | some pass =>
    rcases other with none | other
    · cases none.symm.trans current
    · rw [← hc.generation_pass current] at other
      rw [current?, current, Option.filter_some, if_neg (by simpa using other.symm)]

theorem Coherent.blind (hc : component.Coherent parse options passes)
    (other : component.pass = none ∨ generation ≠ component.generation) (number : Nat) :
    component.Blind generation number :=
  blind_of_current? (hc.current?_eq_none other) number

/-- A component that shows no tree resolves no handle at all. -/
theorem Coherent.blind_of_tree? (hc : component.Coherent parse options passes)
    (hfail : component.tree? = none) (generation number : Nat) :
    component.Blind generation number := by
  cases hf : component.current? generation with
  | none => exact blind_of_current? hf number
  | some pass =>
    obtain ⟨current, -⟩ := Option.filter_eq_some_iff.mp hf
    have hshown := hc.shown (hc.passes_pos current)
    cases outcome : component.attributes.outcome parse with
    | ok tree =>
      rw [outcome] at hshown
      cases hfail.symm.trans hshown.2.1
    | error error =>
      rw [outcome] at hshown
      rw [tree?, current] at hfail
      have document := hshown.1
      rw [document?, current] at document
      exact blind_of_failed hf hfail (Option.some.inj document) number

/-- What a component shows that shows a tree. -/
structure Displays (component : Component) (tree : Tree) (pass : Pass) : Prop where
  regular : tree.Regular
  current : component.current? component.generation = some pass
  generation_eq : pass.generation = component.generation
  document_eq : pass.document = tree.render component.options
  tree?_eq : pass.tree? = some tree.annotate

theorem Coherent.displays (hc : component.Coherent parse options passes)
    (hl : parse.Lowers) {annotated : AnnotatedTree} {document : Document}
    (hparsed : component.tree? = some annotated) (hr : component.document? = some document) :
    ∃ tree pass, annotated = tree.annotate ∧ document = tree.render component.options ∧
      component.Displays tree pass := by
  obtain ⟨pass, current, tree_eq⟩ := Option.bind_eq_some_iff.mp hparsed
  have hshown := hc.shown (hc.passes_pos current)
  have hn := hc.generation_pass current
  cases outcome : component.attributes.outcome parse with
  | error error =>
    rw [outcome] at hshown
    cases hshown.2.1.symm.trans hparsed
  | ok tree =>
    rw [outcome] at hshown
    obtain ⟨document_eq, hparsed', -⟩ := hshown
    cases hparsed'.symm.trans hparsed
    cases document_eq.symm.trans hr
    obtain ⟨value, hj⟩ := hl _ _ _ outcome
    rw [document?, current] at document_eq
    have hf : component.current? component.generation = some pass := by
      rw [current?, current, Option.filter_some, if_pos (by simpa using hn)]
    exact ⟨tree, pass, rfl, rfl, Tree.regular_of_ofJson hj, hf, hn,
      Option.some.inj document_eq, tree_eq⟩

end Coherent

section Displays

variable {tree : Tree} {pass : Pass}

theorem Displays.node?_eq (hd : component.Displays tree pass) (id : Nat) :
    component.node? ⟨component.generation, id⟩ = tree.node? id := by
  rw [node?, hd.current]
  change (pass.tree?.bind fun tree => tree.nodes[id]?) = _
  rw [hd.tree?_eq]
  rfl

theorem Displays.path?_eq (hd : component.Displays tree pass) (id : Nat) :
    component.path? ⟨component.generation, id⟩ =
      (tree.node? id).map fun _ => tree.annotate.path id := by
  rw [path?, hd.current]
  change (pass.tree?.bind fun tree => tree.nodes[id]?.bind fun _ => some (tree.path id)) = _
  rw [hd.tree?_eq, Option.map_eq_bind]
  rfl

theorem Displays.nodeForUnit?_eq (hd : component.Displays tree pass) (unit : Nat) :
    component.nodeForUnit? ⟨component.generation, unit⟩ =
      ((tree.render component.options).nodeFor? unit).map (⟨component.generation, ·⟩) := by
  rw [nodeForUnit?, hd.current, ← hd.document_eq, ← hd.generation_eq,
    Option.map_eq_bind]
  rfl

theorem Displays.unitForNode?_eq (hd : component.Displays tree pass) (node : Nat) :
    component.unitForNode? ⟨component.generation, node⟩ =
      ((tree.render component.options).unitFor? node).map (⟨component.generation, ·⟩) := by
  rw [unitForNode?, hd.current, ← hd.document_eq, ← hd.generation_eq,
    Option.map_eq_bind]
  rfl

/-- A click on a unit tells of the nearest node around it. -/
theorem Displays.click?_eq (hd : component.Displays tree pass) (unit : Nat) :
    component.click? ⟨component.generation, unit⟩ =
      ((tree.render component.options).nearestNode? (tree.render component.options).unitCount
        unit).map fun (owner, node) =>
          tree.annotate.click component.generation component.options.pathSeparator owner node := by
  rw [click?, hd.current, ← hd.document_eq, ← hd.generation_eq,
    Option.map_eq_bind]
  change pass.click? component.options.pathSeparator unit = _
  rw [Pass.click?, hd.tree?_eq]
  rfl

theorem Displays.isSome_node? (hd : component.Displays tree pass) (id : Nat) :
    (component.node? ⟨component.generation, id⟩).isSome ↔ id < tree.size := by
  rw [hd.node?_eq, Tree.node?, isSome_getElem?]
  rfl

theorem Displays.path?_eq_strictClimb (hd : component.Displays tree pass) (id : Nat) :
    component.path? ⟨component.generation, id⟩ = tree.annotate.strictClimb tree.size id {} := by
  rw [hd.path?_eq]
  rcases Nat.lt_or_ge id tree.size with hk | outside
  · obtain ⟨node, -, -, hf⟩ := Tree.exists_node hk
    rw [hf, Option.map_some, Tree.strictClimb_eq hd.regular hk (by omega)]
    rfl
  · rw [AnnotatedTree.strictClimb_eq_none outside, Tree.node?, Array.getElem?_eq_none outside,
      Option.map_none]

end Displays

/-- What handles of the last pass lead to: the nodes of the tree and the units of the document,
and nothing else. Neither a path nor a click asks for a node that the tree lacks. -/
structure Bounded (component : Component) (tree : AnnotatedTree) (document : Document) :
    Prop where
  node : ∀ id, (component.node? ⟨component.generation, id⟩).isSome ↔ id < tree.nodes.size
  path : ∀ id, (component.path? ⟨component.generation, id⟩).isSome ↔ id < tree.nodes.size
  climb : ∀ id, component.path? ⟨component.generation, id⟩ =
    tree.strictClimb tree.nodes.size id {}
  nodeForUnit : ∀ unit node, component.nodeForUnit? ⟨component.generation, unit⟩ = some node →
    unit < document.unitCount ∧ node.generation = component.generation ∧
      node.node < tree.nodes.size
  unitForNode : ∀ node unit, component.unitForNode? ⟨component.generation, node⟩ = some unit →
    node < tree.nodes.size ∧ unit.generation = component.generation ∧
      unit.unit < document.unitCount
  click : ∀ unit click, component.click? ⟨component.generation, unit⟩ = some click →
    unit < document.unitCount ∧ click.unit.unit < document.unitCount ∧
      tree.strictClimb tree.nodes.size click.node.node {} = some click.path ∧
      (tree.nodes[click.node.node]?).map Node.typeName = some click.nodeType

theorem Displays.bounded {tree : Tree} {pass : Pass} (hd : component.Displays tree pass) :
    component.Bounded tree.annotate (tree.render component.options) where
  node := hd.isSome_node?
  path id := by
    rw [hd.path?_eq, Option.isSome_map, ← hd.node?_eq]
    exact hd.isSome_node? id
  climb := hd.path?_eq_strictClimb
  nodeForUnit unit node hf := by
    rw [hd.nodeForUnit?_eq] at hf
    obtain ⟨id, ho, rfl⟩ := Option.map_eq_some_iff.mp hf
    exact ⟨Document.lt_unitCount_of_nodeFor? ho, rfl,
      Tree.nodeFor?_lt_size hd.regular _ ho⟩
  unitForNode node unit hf := by
    rw [hd.unitForNode?_eq] at hf
    obtain ⟨id, hshown, rfl⟩ := Option.map_eq_some_iff.mp hf
    refine ⟨Nat.lt_of_not_le fun outside => ?_, rfl, Tree.unitFor?_lt_unitCount _ hshown⟩
    cases (Tree.unitFor?_eq_none hd.regular _ outside).symm.trans hshown
  click unit click hf := by
    rw [hd.click?_eq] at hf
    obtain ⟨⟨owner, id⟩, nearest, rfl⟩ := Option.map_eq_some_iff.mp hf
    have ho := Document.nodeFor?_of_nearestNode? nearest
    have hk := Tree.nodeFor?_lt_size hd.regular _ ho
    obtain ⟨node, -, -, hf⟩ := Tree.exists_node hk
    refine ⟨Document.lt_unitCount_of_nearestNode? nearest, Document.lt_unitCount_of_nodeFor? ho,
      Tree.strictClimb_eq hd.regular hk (Nat.le_add_left _ _) {}, ?_⟩
    change (tree.node? id).map Node.typeName = some (tree.annotate.typeName id)
    rw [hf, Tree.typeName_annotate hf, Option.map_some]

/-- After any operations a handle that is not of the last pass leads to nothing, and no further
operations change that: once there has been a later pass, whatever it shows, the handle is lost.
If the last parse failed, no handle leads to anything; otherwise a handle leads at most to nodes of
the tree and to units of the document. -/
theorem handles_after (parse : Parser) (options : RenderOptions) (operations : List Operation) :
    let component := (after parse options operations).component
    (∀ generation number, component.pass = none ∨ generation ≠ component.generation →
      component.Blind generation number) ∧
    (∀ more generation number,
      generation < component.generation + (component.run parse more).passes →
      (component.run parse more).component.Blind generation number) ∧
    (component.tree? = none → ∀ generation number, component.Blind generation number) ∧
    (parse.Lowers → ∀ tree document, component.tree? = some tree →
      component.document? = some document → component.Bounded tree document) := by
  intro component
  have hc := coherent_after parse options operations
  refine ⟨fun generation number other => hc.blind other number, ?_, hc.blind_of_tree?,
    ?_⟩
  · intro more generation number earlier
    have later := hc.run more
    rw [← hc.generation_eq] at later
    refine later.blind (.inr fun same => ?_) number
    rw [same, later.generation_eq] at earlier
    exact Nat.lt_irrefl _ earlier
  · intro hl tree document hp hr
    obtain ⟨tree, pass, rfl, rfl, hd⟩ := hc.displays hl hp hr
    exact hd.bounded

/-- The same text again: what handles of the first pass led to is lost. -/
theorem handles_after_rerendering :
    sampleParser.Lowers ∧
    let component :=
      (after sampleParser {} [.setAttribute "value" (some "a;"), .render]).component
    component.generation = 2 ∧ component.Blind 1 0 ∧
      (component.run sampleParser [.setContent "b c", .connect, .render]).component.Blind 2 0 ∧
      (component.node? ⟨2, 2⟩).isSome ∧ component.node? ⟨2, 3⟩ = none := by
  have hl : sampleParser.Lowers := Parser.lowers_ofJson _
  obtain ⟨current, later, -, bounded⟩ :=
    handles_after sampleParser {} [.setAttribute "value" (some "a;"), .render]
  refine ⟨hl, ?_⟩
  intro component
  have hn : component.generation = 2 := by decide +kernel
  obtain ⟨tree, hp, size⟩ := Option.map_eq_some_iff.mp
    (by decide +kernel : component.tree?.map (·.nodes.size) = some 3)
  obtain ⟨document, hr, -⟩ := Option.map_eq_some_iff.mp
    (by decide +kernel : component.document?.map Document.unitCount = some 2)
  have nodes := (bounded hl tree document hp hr).node
  rw [size, show Component.generation _ = 2 from hn] at nodes
  refine ⟨hn, current 1 0 (.inr ?_), later _ 2 0 ?_, (nodes 2).mpr (by omega), ?_⟩
  · decide +kernel
  · decide +kernel
  · rw [← Option.not_isSome_iff_eq_none, nodes 3]
    omega

end Component

end SyntaxMarkup
