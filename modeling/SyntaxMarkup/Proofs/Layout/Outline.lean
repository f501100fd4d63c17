import SyntaxMarkup.Proofs.Layout.Renumbering
import SyntaxMarkup.Proofs.Layout.Standing
import SyntaxMarkup.Proofs.Tree.Addresses

namespace SyntaxMarkup

/-- A stretch of text: as it stands, or the indentation of a level. -/
inductive Stroke where
  | text (content : String)
  | pad (level : Nat)
  deriving DecidableEq, Repr

namespace Stroke

def content (indent : String) : Stroke → String
  | text content => content
  | pad level => String.join (List.replicate level indent)

def spell (indent : String) (strokes : List Stroke) : String :=
  String.join (strokes.map (content indent))

/-- The stroke with more indentation; fixed text stays as it is, line breaks included. -/
def raise (more : Nat) : Stroke → Stroke
  | text content => .text content
  | pad level => .pad (level + more)

end Stroke

namespace Event

def stroke? : Event → Option Stroke
  | text content => some (.text content)
  | pad level => some (.pad level)
  | _ => none

def raise (more : Nat) : Event → Event
  | pad level => .pad (level + more)
  | event => event

theorem texts_calls (indent : String) (events : List Event) :
    (calls indent events).filterMap MarkupCall.text? =
      (events.filterMap stroke?).map (Stroke.content indent) := by
  rw [calls, List.filterMap_filterMap, List.map_filterMap]
  refine List.filterMap_congr fun event _ => ?_
  cases event <;> rfl

theorem strokes_raise (more : Nat) (events : List Event) :
    (events.map (raise more)).filterMap stroke? =
      (events.filterMap stroke?).map (Stroke.raise more) := by
  rw [List.filterMap_map, List.map_filterMap]
  refine List.filterMap_congr fun event _ => ?_
  cases event <;> rfl

theorem strokes_renumber (number : Nat → Nat) (events : List Event) :
    (events.map (renumber number)).filterMap stroke? = events.filterMap stroke? := by
  rw [List.filterMap_map]
  refine List.filterMap_congr fun event _ => ?_
  cases event <;> rfl

end Event

/-- The level of a node does not reach its templates: it is added to all indentation. -/
theorem Node.events_raise {node : Node Nat} (hr : ∀ below ∈ node.preorder, below.Regular)
    (place : Place) (level more : Nat) :
    node.events place (level + more) = (node.events place level).map (Event.raise more) := by
  induction node using induction generalizing place level with
  | step node ih =>
    have inside : (node.pieces node.parts place).flatMap (Piece.events (level + more)) =
        ((node.pieces node.parts place).flatMap (Piece.events level)).map (Event.raise more) := by
      rw [List.map_flatMap]
      refine List.flatMap_congr fun piece hpiece => ?_
      cases piece with
      | text | share => rfl
      | pad deeper => exact congrArg ([Event.pad ·]) (Nat.add_right_comm level more deeper)
      | child part at_ deeper =>
        obtain ⟨child, hc, rfl⟩ := part_mem_children (hr _ node.self_mem_preorder) hpiece
        rw [Piece.events, Nat.add_right_comm]
        exact ih child hc (fun below h => hr below (mem_preorder_of_child hc h)) _ _
    rw [events_eq, events_eq, inside, framed_eq, framed_eq]
    split
    · rfl
    · rw [List.map_append]
      rfl

namespace Builder

variable {first second : Builder} {indent indent' : String}

/-- Whether two builders have opened the same units, the same ones of which are still open, and
let them show the same nodes. -/
structure Agrees (first second : Builder) : Prop where
  next : first.next = second.next
  frame : first.frame = second.frame
  opened : first.opened = second.opened
  nodeUnits : first.nodeUnits = second.nodeUnits

theorem Agrees.text (ha : first.Agrees second) (content content' : String) :
    (first.text content).Agrees (second.text content') where
  next := by rw [next_text, next_text, ha.next]
  frame := by rw [frame_text, frame_text, ha.frame]
  opened := by rw [opened_text, opened_text, ha.opened]
  nodeUnits := by rw [nodeUnits_text, nodeUnits_text, ha.nodeUnits]

theorem Agrees.apply (ha : first.Agrees second) (event : Event) :
    (first.apply indent event).Agrees (second.apply indent' event) := by
  cases event with
  | openUnit label title node =>
    exact {
      next := congrArg (· + 1) ha.next
      frame := by
        rw [Builder.apply, Builder.apply, frame_openUnit, frame_openUnit, ha.next, ha.frame]
      opened := by
        rw [Builder.apply, Builder.apply, opened_openUnit, opened_openUnit, ha.next,
          ha.frame, ha.opened]
      nodeUnits := by
        rw [Builder.apply, Builder.apply, openUnit, openUnit, ha.next, ha.nodeUnits] }
  | text content => exact ha.text content content
  | pad level => exact ha.text _ _
  | close =>
    exact {
      next := by rw [Builder.apply, Builder.apply, next_close, next_close, ha.next]
      frame := by rw [Builder.apply, Builder.apply, frame_close, frame_close, ha.frame]
      opened := by rw [Builder.apply, Builder.apply, opened_close, opened_close, ha.opened]
      nodeUnits := by
        rw [Builder.apply, Builder.apply, nodeUnits_close, nodeUnits_close, ha.nodeUnits] }
  | share node target =>
    have hf : first.unitFor? target = second.unitFor? target := by
      rw [unitFor?, unitFor?, ha.nodeUnits]
    rw [Builder.apply, Builder.apply, share, share, hf]
    split
    · exact ⟨ha.next, ha.frame, ha.opened,
        congrArg (fun units : NodeUnits => units.insert node _) ha.nodeUnits⟩
    · exact ha

theorem Agrees.run (ha : first.Agrees second) (events : List Event) :
    (events.foldl (Builder.apply indent) first).Agrees
      (events.foldl (Builder.apply indent') second) := by
  induction events generalizing first second with
  | nil => exact ha
  | cons event rest ih => exact ih (ha.apply event)

end Builder

/-- Where a type writes a child: in most fields every child is written in the same way. -/
theorem Kind.placeOf_cases (kind : Kind) (field : String) (child : Kind) :
    kind.placeOf field child = .plain ∨
      kind.placeOf field child = .header ∧ child.isVariableDeclaration = true ∨
      kind.placeOf field child = .method ∧ child.isFunctionExpression = true := by
  unfold placeOf
  split <;> (try split) <;> simp_all

namespace Tree

variable {tree : Tree}

/-- The outline of the root of a tree, where it stands at a place. -/
def outline (tree : Tree) (place : Place) : List Stroke :=
  (tree.root.events place 0).filterMap Event.stroke?

theorem text_eq_spell (tree : Tree) (options : RenderOptions) :
    (tree.render options).text = Stroke.spell options.indent (tree.outline .plain) := by
  have text := Builder.text_of_marks (tree.marks_written options)
  rw [Event.texts_calls] at text
  exact text

theorem agrees_written (tree : Tree) (options options' : RenderOptions) :
    (tree.written options).Agrees (tree.written options') :=
  .run ⟨rfl, rfl, rfl, rfl⟩ tree.events

/-- What a node writes is the outline of its own tree, raised by the level of the node. -/
theorem strokes_events (hr : tree.Regular) {node : Node Nat}
    (hm : node ∈ tree.root.preorder) (whole : node.subtree.Regular) (place : Place)
    (level : Nat) : (node.events place level).filterMap Event.stroke? =
      (node.subtree.outline place).map (Stroke.raise level) := by
  obtain ⟨first, shifted⟩ := Node.exists_shift_subtree hm
  have ht := fun below h => hr below (Node.mem_preorder_trans hm h)
  have raised := node.events_raise ht place 0 level
  rw [Nat.zero_add] at raised
  have bottom : node.events place 0 =
      (node.subtree.root.events place 0).map (Event.renumber (first + ·)) := by
    conv_lhs => rw [shifted]
    exact Node.events_rebuild _ _ whole place 0
  rw [raised, Event.strokes_raise, bottom, Event.strokes_renumber, outline]

theorem Stands.place_cases {node : Node Nat} {place : Place} {level : Nat}
    (hs : tree.Stands node place level) :
    place = .plain ∨ place = .header ∧ node.kind.isVariableDeclaration = true ∨
      place = .method ∧ node.kind.isFunctionExpression = true := by
  cases hs with
  | root => exact .inl rfl
  | child => exact Kind.placeOf_cases _ _ _

/-- The text of a lowered tree is its outline, spelled with the indentation of the options, and
nothing else in the markup depends on the options. The unit of a node holds the outline of what is
at and below the node, rendered on its own at the same place, with all indentation raised by the
level of the node. The place makes a difference to declarations in the header of a loop and to
functions that are methods only. -/
theorem outline_of_ofJson {value : Json} {tree : Tree} (h : Tree.ofJson value = .ok tree) :
    (∀ options, (tree.render options).text = Stroke.spell options.indent (tree.outline .plain)) ∧
    (∀ options options',
      (tree.render options).units.map MarkupUnit.heading =
          (tree.render options').units.map MarkupUnit.heading ∧
        (tree.render options).nodeUnits = (tree.render options').nodeUnits) ∧
    ∀ options u id, (tree.render options).nodeFor? u = some id → ∃ node,
      tree.node? id = some node ∧ (∃ part, Tree.ofJson part = .ok node.subtree) ∧
      (∀ options', (node.subtree.render options').text =
        Stroke.spell options'.indent (node.subtree.outline .plain)) ∧
      (∃ place level, tree.Stands node place level) ∧
      ∀ place level, tree.Stands node place level →
        (place = .plain ∨ place = .header ∧ node.kind.isVariableDeclaration = true ∨
          place = .method ∧ node.kind.isFunctionExpression = true) ∧
        (tree.render options).unitText u = Stroke.spell options.indent
          ((node.subtree.outline place).map (Stroke.raise level)) := by
  have hr := regular_of_ofJson h
  refine ⟨tree.text_eq_spell, fun options options' => ?_, fun options u id hown => ?_⟩
  · have ha := tree.agrees_written options options'
    refine ⟨?_, ha.nodeUnits⟩
    exact (Builder.headings_finish _).trans (ha.opened.trans (Builder.headings_finish _).symm)
  · obtain ⟨node, place, level, hs, rfl, hp⟩ := exists_stands_of_nodeFor? hr hown
    have hm := hs.mem_preorder hr
    obtain ⟨-, -, part, -, -, hd⟩ := exists_address h (id_lt_size hm)
    have hj := (hd node (node?_id hm)).ofJson_subtree
    refine ⟨node, node?_id hm, ⟨part, hj⟩, node.subtree.text_eq_spell,
      ⟨place, level, hs⟩, fun place level hs => ⟨hs.place_cases, ?_⟩⟩
    obtain ⟨v, unit, hf, hn, -, text⟩ := hs.exists_unit hr hp options
    have hown' : (tree.render options).nodeFor? v = some node.id := by
      rw [Document.nodeFor?, hf]
      exact hn
    rw [eq_of_nodeFor? hr hown hown', text, Event.texts_calls,
      strokes_events hr hm (regular_of_ofJson hj)]
    rfl

def blockSample : Json :=
  .ofNode "Program" [("body", .array [.ofNode "BlockStatement" [("body", .array
    [.ofNode "BlockStatement" [("body", .array [.ofNode "DebuggerStatement" []])]])]])]

/-- The inner block is written as on its own, but one level deeper. -/
theorem outline_of_blockSample :
    ∃ tree node place level, Tree.ofJson blockSample = .ok tree ∧
      (tree.render {}).nodeFor? 1 = some 1 ∧ tree.node? 1 = some node ∧
      tree.Stands node place level ∧ (tree.render {}).unitText 1 =
        Stroke.spell "  " ((node.subtree.outline place).map (Stroke.raise level)) := by
  obtain ⟨tree, hj, ho⟩ := exists_of_ofJson (f := fun tree => (tree.render {}).nodeFor? 1)
    (b := some 1) (by decide +kernel : (ofJson blockSample).toOption.map _ = some _)
  obtain ⟨-, -, units⟩ := outline_of_ofJson hj
  obtain ⟨node, hf, -, -, ⟨place, level, hs⟩, texts⟩ := units {} 1 1 ho
  exact ⟨tree, node, place, level, hj, ho, hf, hs, (texts place level hs).2⟩

end Tree

end SyntaxMarkup
