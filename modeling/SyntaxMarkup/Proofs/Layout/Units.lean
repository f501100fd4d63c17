import SyntaxMarkup.Proofs.Layout.Coverage
import SyntaxMarkup.Proofs.Layout.Openings
import SyntaxMarkup.Proofs.Tree.Links
import Mathlib.Data.List.Perm.Subperm

namespace SyntaxMarkup

def Kind.isUnknown : Kind → Bool
  | unknown _ => true
  | _ => false

theorem Kind.fields?_eq_none {kind : Kind} : kind.fields? = none ↔ kind.isUnknown = true := by
  cases kind <;> simp [fields?, isUnknown]

def Kind.heading (kind : Kind) : String × Option String :=
  if kind.isUnknown then (unknownLabel, some kind.typeName) else (kind.typeName, none)

namespace Node

theorem framed_eq (node : Node Nat) (inside : List Event) :
    node.framed inside =
      if node.kind.isProgram then inside
      else .openUnit node.kind.heading.1 node.kind.heading.2 node.id :: inside ++ [.close] := by
  unfold framed
  split
  next hkind => simp [hkind, Kind.isProgram]
  next hkind => simp [hkind, Kind.isProgram, Kind.heading, Kind.isUnknown, Kind.typeName]
  next hp hunknown =>
    have program : node.kind.isProgram = false := by
      unfold Kind.isProgram
      split
      next hkind => exact absurd hkind (hp _)
      next => rfl
    have hk : node.kind.isUnknown = false := by
      unfold Kind.isUnknown
      split
      next hkind => exact absurd hkind (hunknown _)
      next => rfl
    simp [program, hk, Kind.heading]

theorem events_of_not_program {node : Node Nat} (hp : node.kind.isProgram = false)
    (place : Place) (level : Nat) : node.events place level =
      .openUnit node.kind.heading.1 node.kind.heading.2 node.id ::
        (node.pieces node.parts place).flatMap (Piece.events level) ++ [.close] := by
  rw [events_eq, framed_eq, hp, if_neg Bool.false_ne_true]

/-- The pieces of a node without a template have no children. -/
theorem pieces_of_unknown {node : Node Nat} (hu : node.kind.isUnknown = true) (place : Place) :
    node.pieces node.parts place = .text ("/* Unknown: " ++ node.typeName ++ " */") ::
      node.descendants.map fun below => .share below.id node.id := by
  unfold Kind.isUnknown at hu
  split at hu
  next name hk => simp [pieces, hk, Template.pieces, Piece.lit, typeName, Kind.typeName]
  next => cases hu

theorem written_of_unknown {node : Node Nat} (hu : node.kind.isUnknown = true) (place : Place)
    (level : Nat) : (node.pieces node.parts place).flatMap (Piece.events level) =
      .text ("/* Unknown: " ++ node.typeName ++ " */") ::
        (node.descendants.map id).map fun below => .share below node.id := by
  rw [pieces_of_unknown hu]
  simp [Piece.events, List.map_eq_flatMap, List.flatMap_assoc]

theorem part_mem_children {node : Node Nat} (hr : node.Regular) {place at_ : Place}
    {part : Part} {deeper : Nat} (hm : .child part at_ deeper ∈ node.pieces node.parts place) :
    ∃ child ∈ node.children, part = child.part := by
  cases hl : node.kind.fields? with
  | none =>
    rw [pieces_of_unknown (Kind.fields?_eq_none.mp hl)] at hm
    simp at hm
  | some fields =>
    obtain ⟨used, lost, each, perm, -⟩ := cover_pieces hr hl place
    obtain ⟨method, use, -⟩ := Piece.exists_use?_child part at_ deeper
    have hu : Use.write part method ∈ Piece.uses (node.pieces node.parts place) :=
      List.mem_filterMap.mpr ⟨_, hm, use⟩
    obtain ⟨child, hused, same⟩ := exists_of_forall₂ each.flip hu
    exact ⟨child, perm.subset (List.mem_append_left _ hused), same⟩

theorem closed_pieces {node : Node Nat} (hr : node.Regular) (place : Place) (level : Nat)
    (hclosed : ∀ child ∈ node.children, ∀ place level, Event.Closed (child.events place level)) :
    ∀ piece ∈ node.pieces node.parts place, Event.Closed (piece.events level) := by
  intro piece hm
  cases piece with
  | text content => exact .text content
  | pad deeper => exact .pad _
  | share node target => exact .share node target
  | child part at_ deeper =>
    obtain ⟨child, hc, rfl⟩ := part_mem_children hr hm
    exact hclosed child hc _ _

theorem closed_events (node : Node Nat) (hr : ∀ below ∈ node.preorder, below.Regular)
    (place : Place) (level : Nat) : Event.Closed (node.events place level) := by
  induction node using induction generalizing place level with
  | step node ih =>
    have inside := Event.closed_flatMap <| closed_pieces (hr _ node.self_mem_preorder)
      place level fun child hc =>
        ih child hc fun below h => hr below (mem_preorder_of_child hc h)
    rw [events_eq, framed_eq]
    split
    · exact inside
    · exact .unit _ _ _ inside

theorem named_pieces {level : Nat} {pieces : List Piece} {used : List (Node Nat)}
    (each : List.Forall₂ Use.Of (Piece.uses pieces) used)
    (hn : ∀ child ∈ used, ∀ place level,
      ((child.events place level).flatMap Event.named).Subperm (child.preorder.map id)) :
    ((pieces.flatMap (Piece.events level)).flatMap Event.named).Subperm
      ((used.flatMap preorder).map id) := by
  induction pieces generalizing used with
  | nil => exact List.nil_subperm
  | cons piece rest ih =>
    rw [List.flatMap_cons, List.flatMap_append]
    cases piece with
    | text | pad => exact ih each hn
    | child part place deeper =>
      obtain ⟨method, use, -⟩ := Piece.exists_use?_child part place deeper
      rw [Piece.uses, List.filterMap_cons_some use] at each
      obtain ⟨child, others, same, tail, rfl⟩ := List.forall₂_cons_left_iff.mp each
      rw [List.flatMap_cons, List.map_append, show part = child.part from same]
      exact List.Subperm.append (hn child List.mem_cons_self _ _)
        (ih tail fun other hm => hn other (List.mem_cons_of_mem _ hm))
    | share node target =>
      obtain ⟨child, others, same, tail, rfl⟩ := List.forall₂_cons_left_iff.mp each
      rw [List.flatMap_cons, List.map_append]
      refine List.Subperm.append ?_ (ih tail fun other hm => hn other (.tail _ hm))
      rw [preorder_eq, List.map_cons, ← show node = child.id from same]
      exact List.singleton_subperm_iff.mpr List.mem_cons_self

theorem named_inside {node : Node Nat} (hr : node.Regular)
    (hn : ∀ child ∈ node.children, ∀ place level,
      ((child.events place level).flatMap Event.named).Subperm (child.preorder.map id))
    (place : Place) (level : Nat) :
    (((node.pieces node.parts place).flatMap (Piece.events level)).flatMap Event.named).Subperm
      (node.descendants.map id) := by
  cases hl : node.kind.fields? with
  | none =>
    have all : ((node.pieces node.parts place).flatMap (Piece.events level)).flatMap
        Event.named = node.descendants.map id := by
      rw [written_of_unknown (Kind.fields?_eq_none.mp hl)]
      exact Event.named_shares _ _
    rw [all]
  | some fields =>
    obtain ⟨used, lost, each, perm, -⟩ := cover_pieces hr hl place
    have hc {child : Node Nat} (hm : child ∈ used) : child ∈ node.children :=
      perm.subset (List.mem_append_left _ hm)
    refine (named_pieces each fun child hm => hn child (hc hm)).trans ?_
    rw [descendants_eq]
    have all := ((perm.flatMap_right preorder).map id).subperm
    rw [List.flatMap_append, List.map_append] at all
    exact (List.sublist_append_left _ _).subperm.trans all

/-- Writing a node names nodes at and below it, each at most once. -/
theorem named_events (node : Node Nat) (hr : ∀ below ∈ node.preorder, below.Regular)
    (place : Place) (level : Nat) :
    ((node.events place level).flatMap Event.named).Subperm (node.preorder.map id) := by
  induction node using induction generalizing place level with
  | step node ih =>
    have inside := named_inside (hr _ node.self_mem_preorder) (fun child hc =>
      ih child hc fun below h => hr below (mem_preorder_of_child hc h)) place level
    rw [events_eq, framed_eq, preorder_eq_cons]
    split
    · exact inside.trans (List.sublist_cons_self _ _).subperm
    · have all := (List.subperm_cons node.id).mpr inside
      simpa only [List.cons_append, List.flatMap_cons, List.flatMap_append, Event.named,
        List.flatMap_nil, List.append_nil, List.nil_append, List.map_cons] using all

end Node

/-- Whether an opening is that of a node, as far as the node alone tells. -/
def Opening.IsOf (opening : Opening) (node : Node Nat) : Prop :=
  opening.node = node.id ∧ node.kind.isProgram = false ∧
    (opening.label, opening.title) = node.kind.heading

namespace Tree

variable {tree : Tree}

/-- Whether an opening for the lower one of two nodes stands inside the unit that it belongs to:
that of its owner, or the one around the upper node if both have the same owner. -/
def Nests (tree : Tree) (opening : Opening) (around : Option Nat) (upper lower : Node Nat) : Prop :=
  (∀ owner, opening.owner = some owner ↔ tree.annotate.Owner lower.id owner) ∨
    opening.owner = around ∧
      ∀ owner, tree.annotate.Owner lower.id owner ↔ tree.annotate.Owner upper.id owner

theorem closed_pieces (hr : tree.Regular) {node : Node Nat}
    (hm : node ∈ tree.root.preorder) (place : Place) (level : Nat) :
    ∀ piece ∈ node.pieces node.parts place, Event.Closed (piece.events level) :=
  Node.closed_pieces (hr node hm) place level fun child hc =>
    child.closed_events fun below h =>
      hr below (Node.mem_preorder_trans hm (Node.mem_preorder_of_child hc h))

theorem closed_inside (hr : tree.Regular) {node : Node Nat} (hm : node ∈ tree.root.preorder)
    (place : Place) (level : Nat) :
    Event.Closed ((node.pieces node.parts place).flatMap (Piece.events level)) :=
  Event.closed_flatMap (closed_pieces hr hm place level)

theorem exists_child_of_opening (hr : tree.Regular) {node : Node Nat}
    (hm : node ∈ tree.root.preorder) {place : Place} {level : Nat} {around : List Nat}
    {opening : Opening} (h : opening ∈ Event.openings around
      ((node.pieces node.parts place).flatMap (Piece.events level))) :
    ∃ child ∈ node.children, ∃ place level,
      opening ∈ Event.openings around (child.events place level) := by
  rw [Event.openings_flatMap fun piece hpiece =>
    (closed_pieces hr hm place level piece hpiece).balanced] at h
  obtain ⟨piece, hp, h⟩ := List.mem_flatMap.mp h
  cases piece with
  | child part at_ deeper =>
    obtain ⟨child, hc, rfl⟩ := Node.part_mem_children (hr node hm) hp
    exact ⟨child, hc, at_, level + deeper, h⟩
  | text | pad | share => cases h

/-- Every opening is that of a node, and stands inside the unit that the node belongs to. -/
theorem exists_node_of_opening (hr : tree.Regular) {node : Node Nat}
    (hm : node ∈ tree.root.preorder) {place : Place} {level : Nat} {around : List Nat}
    {opening : Opening} (h : opening ∈ Event.openings around (node.events place level)) :
    ∃ below ∈ node.preorder, opening.IsOf below ∧ tree.Nests opening around.head? node below := by
  induction node using Node.induction generalizing place level around with
  | step node ih =>
    -- what is opened inside the node is opened for a child, whatever stands around the node
    have inside {around : List Nat} (h : opening ∈ Event.openings around
        ((node.pieces node.parts place).flatMap (Piece.events level))) :
        ∃ child ∈ node.children, ∃ below ∈ child.preorder, opening.IsOf below ∧
          tree.Nests opening around.head? child below := by
      obtain ⟨child, hc, place, level, h⟩ := exists_child_of_opening hr hm h
      have ht := Node.mem_preorder_trans hm (Node.child_mem_preorder hc)
      exact ⟨child, hc, ih child hc ht h⟩
    rw [Node.events_eq, Node.framed_eq] at h
    cases program : node.kind.isProgram with
    | true =>
      -- a program opens nothing itself: its children stand where it stands
      rw [if_pos program] at h
      obtain ⟨child, hc, below, hb, ho, howned⟩ := inside h
      refine ⟨below, Node.mem_preorder_of_child hc hb, ho, howned.imp_right ?_⟩
      rintro ⟨outside, same⟩
      refine ⟨outside, fun owner => (same owner).trans ?_⟩
      rw [owner_child_iff hr hm hc, if_pos program]
    | false =>
      have hclosed := closed_inside hr hm place level
      rw [if_neg (by simp [program]), Event.openings_unit hclosed.balanced, Event.openings,
        List.append_nil] at h
      rcases List.mem_cons.mp h with rfl | h
      · exact ⟨node, node.self_mem_preorder, ⟨rfl, program, rfl⟩, .inr ⟨rfl, fun _ => Iff.rfl⟩⟩
      · obtain ⟨child, hc, below, hb, ho, howned⟩ := inside h
        refine ⟨below, Node.mem_preorder_of_child hc hb, ho, .inl ?_⟩
        rcases howned with howned | ⟨outside, same⟩
        · exact howned
        · intro owner
          rw [same, owner_child_iff hr hm hc, program, outside]
          simp [eq_comm]

theorem exists_node_of_event (hr : tree.Regular) {opening : Opening}
    (h : opening ∈ Event.openings [] tree.events) :
    ∃ node ∈ tree.root.preorder, opening.IsOf node ∧
      ∀ owner, opening.owner = some owner ↔ tree.annotate.Owner node.id owner := by
  obtain ⟨node, hm, ho, howned⟩ := exists_node_of_opening hr tree.root.self_mem_preorder h
  refine ⟨node, hm, ho, ?_⟩
  rcases howned with howned | ⟨outside, same⟩
  · exact howned
  · intro owner
    rw [outside, same]
    exact iff_of_false (by simp) (not_owner_root hr owner)

theorem nodup_named (hr : tree.Regular) : (tree.events.flatMap Event.named).Nodup := by
  obtain ⟨ids, perm, sublist⟩ := tree.root.named_events hr .plain 0
  exact perm.nodup_iff.mp (tree.nodup_ids.sublist sublist)

def written (tree : Tree) (options : RenderOptions) : Builder :=
  tree.events.foldl (Builder.apply options.indent) {}

theorem sound_written (tree : Tree) (options : RenderOptions) : (tree.written options).Sound :=
  Builder.sound_empty.run tree.events

theorem assigned_written (hr : tree.Regular) (options : RenderOptions) :
    (tree.written options).Assigned :=
  Builder.assigned_empty.run (nodup_named hr)

theorem unitFor?_of_nodeFor? (hr : tree.Regular) {options : RenderOptions} {u id : Nat}
    (h : (tree.render options).nodeFor? u = some id) :
    (tree.render options).unitFor? id = some u := by
  obtain ⟨unit, hopened, rfl, hn⟩ := (tree.sound_written options).nodeFor?_finish.mp h
  exact assigned_written hr options unit hopened id hn

/-- No two units are those of one node. -/
theorem eq_of_nodeFor? (hr : tree.Regular) {options : RenderOptions} {u v id : Nat}
    (h : (tree.render options).nodeFor? u = some id)
    (h' : (tree.render options).nodeFor? v = some id) : u = v :=
  Option.some.inj ((unitFor?_of_nodeFor? hr h).symm.trans (unitFor?_of_nodeFor? hr h'))

/-- An opened unit is that of a node, inside the unit of the owner of the node. -/
theorem exists_node_of_opened (hr : tree.Regular) (options : RenderOptions)
    {unit : MarkupUnit} (h : unit ∈ (tree.written options).opened) :
    ∃ node ∈ tree.root.preorder, node.kind.isProgram = false ∧ unit.node = some node.id ∧
      (unit.label, unit.title) = node.kind.heading ∧
      (unit.parent = none ∧ (∀ owner, ¬tree.annotate.Owner node.id owner) ∨
        ∃ outer ∈ (tree.written options).opened, unit.parent = some outer.id ∧
          ∃ owner, outer.node = some owner ∧ tree.annotate.Owner node.id owner) := by
  obtain ⟨added, hopened, each⟩ :=
    @Builder.opened_run options.indent _ Builder.sound_empty [] rfl tree.events
  have added : unit ∈ added := by
    rw [written, hopened] at h
    exact h
  obtain ⟨opening, ho, label, title, hn, nested⟩ := exists_of_forall₂ each added
  obtain ⟨node, hm, ⟨same, hp, heading⟩, howned⟩ := exists_node_of_event hr ho
  refine ⟨node, hm, hp, by rw [hn, same], by rw [label, title, heading], ?_⟩
  cases outside : opening.owner with
  | none =>
    rw [outside] at nested howned
    exact .inl ⟨nested, fun owner => (howned owner).not.mp (by simp)⟩
  | some owner =>
    rw [outside] at nested
    obtain ⟨outer, hk, parent, howner⟩ := nested
    exact .inr ⟨outer, hk, parent, owner, howner, (howned owner).mp outside⟩

/-- The units of the markup of a lowered tree mirror the tree. Each unit is that of one node and
of no other unit, is labelled with the type of the node, and is inside the unit of the nearest
node above that is not a program, if there is one. -/
theorem units_mirror_of_ofJson {value : Json} {tree : Tree} (h : Tree.ofJson value = .ok tree)
    (options : RenderOptions) {u : Nat} {unit : MarkupUnit}
    (found : (tree.render options).unit? u = some unit) :
    ∃ id node, (tree.render options).nodeFor? u = some id ∧ tree.node? id = some node ∧
      (∀ other, (tree.render options).nodeFor? other = some id → other = u) ∧
      (tree.render options).unitFor? id = some u ∧
      (unit.label, unit.title) = node.kind.heading ∧
      (∀ p, unit.parent = some p ↔
        ∃ owner, (tree.render options).nodeFor? p = some owner ∧ tree.annotate.Owner id owner) ∧
      (unit.parent = none ↔ ∀ owner, ¬tree.annotate.Owner id owner) := by
  have hr := regular_of_ofJson h
  have hs := tree.sound_written options
  obtain ⟨hopened, rfl⟩ := hs.unit?_finish found
  obtain ⟨node, hm, -, hn, heading, nested⟩ := exists_node_of_opened hr options hopened
  have nodeFor {u id : Nat} : (tree.render options).nodeFor? u = some id ↔
      ∃ unit ∈ (tree.written options).opened, unit.id = u ∧ unit.node = some id :=
    hs.nodeFor?_finish
  have ho : (tree.render options).nodeFor? unit.id = some node.id :=
    nodeFor.mpr ⟨_, hopened, rfl, hn⟩
  refine ⟨node.id, node, ho, node?_id hm, fun other eq => eq_of_nodeFor? hr eq ho,
    unitFor?_of_nodeFor? hr ho, heading, ?_⟩
  rcases nested with ⟨outermost, alone⟩ | ⟨outer, hk, parent, owner, howner, howned⟩
  · have none : unit.parent = none := outermost
    refine ⟨fun p => iff_of_false (by simp [none]) ?_, iff_of_true none alone⟩
    rintro ⟨owner, -, howned⟩
    exact alone owner howned
  · have inside : unit.parent = some outer.id := parent
    have houter : (tree.render options).nodeFor? outer.id = some owner :=
      nodeFor.mpr ⟨outer, hk, rfl, howner⟩
    refine ⟨fun p => ⟨fun eq => ?_, ?_⟩, iff_of_false (by simp [inside]) fun alone =>
      alone owner howned⟩
    · cases inside.symm.trans eq
      exact ⟨owner, houter, howned⟩
    · rintro ⟨other, hother, howned'⟩
      cases AnnotatedTree.owner_unique howned howned'
      rw [eq_of_nodeFor? hr hother houter, inside]

def nestedSample : Json :=
  .ofNode "Program" [("body", .array [.ofNode "BlockStatement" [("body", .array
    [.ofNode "Program" [("body", .array [.ofNode "JSXElement" [("children", .array
      [.ofNode "Identifier" [("name", .string "a")]])]])]])]])]

/-- The unit inside the program belongs to the block. -/
theorem units_mirror_of_nestedSample :
    ∃ tree unit id owner, Tree.ofJson nestedSample = .ok tree ∧
      (tree.render {}).unit? 1 = some unit ∧ unit.parent = some 0 ∧
      (tree.render {}).unitFor? id = some 1 ∧ (tree.render {}).nodeFor? 0 = some owner ∧
      tree.annotate.Owner id owner := by
  obtain ⟨tree, hj, facts⟩ := exists_of_ofJson
    (f := fun tree => ((tree.render {}).unit? 1).map MarkupUnit.parent) (b := some (some 0))
    (by decide +kernel : (ofJson nestedSample).toOption.map _ = some _)
  obtain ⟨unit, hf, parent⟩ := Option.map_eq_some_iff.mp facts
  obtain ⟨id, node, -, -, -, hshown, -, inside, -⟩ := units_mirror_of_ofJson hj {} hf
  obtain ⟨owner, houter, howned⟩ := (inside 0).mp parent
  exact ⟨tree, unit, id, owner, hj, hf, parent, hshown, houter, howned⟩

end Tree

end SyntaxMarkup
