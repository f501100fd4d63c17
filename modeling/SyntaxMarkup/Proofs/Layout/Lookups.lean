import SyntaxMarkup.Component.Pass
import SyntaxMarkup.Proofs.Layout.Presence

namespace SyntaxMarkup

namespace Document

variable {document : Document} {id : Nat}

theorem unit?_eq_none (outside : document.unitCount ≤ id) : document.unit? id = none :=
  List.getElem?_eq_none outside

theorem exists_unit (hk : id < document.unitCount) :
    ∃ unit, document.unit? id = some unit :=
  ⟨_, List.getElem?_eq_getElem hk⟩

theorem nodeFor?_eq_none (outside : document.unitCount ≤ id) : document.nodeFor? id = none := by
  rw [nodeFor?, unit?_eq_none outside, Option.bind_none]

theorem nearestNode?_eq_none (outside : document.unitCount ≤ id) (steps : Nat) :
    document.nearestNode? steps id = none := by
  cases steps with
  | zero => rw [nearestNode?, nodeFor?_eq_none outside, Option.map_none]
  | succ steps =>
    rw [nearestNode?, nodeFor?_eq_none outside, unit?_eq_none outside]
    rfl

theorem lt_unitCount_of_nodeFor? {node : Nat} (hf : document.nodeFor? id = some node) :
    id < document.unitCount :=
  Nat.lt_of_not_le fun outside => nomatch (nodeFor?_eq_none outside).symm.trans hf

theorem lt_unitCount_of_nearestNode? {steps : Nat} {nearest : Nat × Nat}
    (hf : document.nearestNode? steps id = some nearest) : id < document.unitCount :=
  Nat.lt_of_not_le fun outside => nomatch (nearestNode?_eq_none outside steps).symm.trans hf

theorem nearestNode?_of_nodeFor? {node : Nat} (ho : document.nodeFor? id = some node)
    (steps : Nat) : document.nearestNode? steps id = some (id, node) := by
  cases steps with
  | zero => rw [nearestNode?, ho, Option.map_some]
  | succ steps => rw [nearestNode?, ho]

/-- What a look-up for the nearest node finds is a unit with its node. -/
theorem nodeFor?_of_nearestNode? {steps owner node : Nat}
    (hf : document.nearestNode? steps id = some (owner, node)) :
    document.nodeFor? owner = some node := by
  induction steps generalizing id with
  | zero =>
    obtain ⟨shown, ho, eq⟩ := Option.map_eq_some_iff.mp hf
    cases eq
    exact ho
  | succ steps ih =>
    rw [nearestNode?] at hf
    split at hf
    next shown ho =>
      cases hf
      exact ho
    next =>
      obtain ⟨unit, -, hf⟩ := Option.bind_eq_some_iff.mp hf
      obtain ⟨parent, -, hf⟩ := Option.bind_eq_some_iff.mp hf
      exact ih hf

/-- The unit of an error shows no node. -/
theorem nodeFor?_ofError (message : String) (id : Nat) :
    (ofError message).nodeFor? id = none := by
  have hopened :=
    ((({} : Builder).openUnit errorLabel none none).text message).close.headings_finish
  rw [Builder.opened_close, Builder.opened_text, Builder.opened_openUnit] at hopened
  rw [nodeFor?, Option.bind_eq_none_iff]
  intro unit hf
  have heading := List.mem_map_of_mem (f := MarkupUnit.heading) (List.mem_of_getElem? hf)
  rw [show (ofError message).units.map MarkupUnit.heading = _ from hopened] at heading
  exact congrArg MarkupUnit.node (List.mem_singleton.mp heading)

theorem unitFor?_ofError (message : String) (node : Nat) :
    (ofError message).unitFor? node = none := by
  have unassigned :=
    ((({} : Builder).openUnit errorLabel none none).text message).unitFor?_close node
  rw [Builder.unitFor?_text] at unassigned
  refine unassigned.trans ?_
  simp [Builder.openUnit, Builder.unitFor?]

end Document

namespace Tree

variable {tree : Tree}

/-- Every unit has a node of the tree, which has that unit and gives it its heading. -/
theorem exists_node_of_unit (hr : tree.Regular) (options : RenderOptions) {u : Nat}
    (hk : u < (tree.render options).unitCount) :
    ∃ unit, (tree.render options).unit? u = some unit ∧ ∃ node ∈ tree.root.preorder,
      (tree.render options).nodeFor? u = some node.id ∧
      (tree.render options).unitFor? node.id = some u ∧
      (unit.label, unit.title) = node.kind.heading := by
  obtain ⟨unit, hf⟩ := Document.exists_unit hk
  obtain ⟨hopened, rfl⟩ := (tree.sound_written options).unit?_finish hf
  obtain ⟨node, hm, -, hn, heading, -⟩ := exists_node_of_opened hr options hopened
  refine ⟨unit, hf, node, hm, ?_, assigned_written hr options _ hopened _ hn, heading⟩
  exact (tree.sound_written options).nodeFor?_finish.mpr ⟨_, hopened, rfl, hn⟩

/-- The units of a document are numbered in their order. -/
theorem map_id_units (options : RenderOptions) :
    (tree.render options).units.map MarkupUnit.id =
      List.range (tree.render options).unitCount := by
  have hs := tree.sound_written options
  have headings := congrArg (List.map MarkupUnit.id) (tree.written options).headings_finish
  rw [List.map_map, hs.ids, ← hs.unitCount_finish] at headings
  exact headings

theorem nodeFor?_lt_size (hr : tree.Regular) (options : RenderOptions) {u id : Nat}
    (hf : (tree.render options).nodeFor? u = some id) : id < tree.size := by
  obtain ⟨unit, hopened, -, hnode⟩ := (tree.sound_written options).nodeFor?_finish.mp hf
  obtain ⟨node, hm, -, hnode', -⟩ := exists_node_of_opened hr options hopened
  cases hnode.symm.trans hnode'
  exact id_lt_size hm

theorem unitFor?_lt_unitCount (options : RenderOptions) {id u : Nat}
    (hf : (tree.render options).unitFor? id = some u) : u < (tree.render options).unitCount := by
  have hs := tree.sound_written options
  have bound := hs.shown id u hf
  rwa [← hs.unitCount_finish] at bound

/-- Only nodes of the tree have a unit. -/
theorem unitFor?_eq_none (hr : tree.Regular) (options : RenderOptions) {id : Nat}
    (outside : tree.size ≤ id) : (tree.render options).unitFor? id = none := by
  by_contra hshown
  rcases Builder.named_of_shows_run (Option.isSome_iff_ne_none.mpr hshown) with never | hn
  · simp [Builder.Shows, Builder.unitFor?] at never
  · obtain ⟨node, hm, rfl⟩ :=
      List.mem_map.mp ((tree.root.named_events hr .plain 0).subset hn)
    have := id_lt_size hm
    omega

end Tree

end SyntaxMarkup
