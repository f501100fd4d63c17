import SyntaxMarkup.Proofs.Layout.Seats
import SyntaxMarkup.Proofs.Markup.Forest

namespace SyntaxMarkup

namespace MarkupCall

/-- How many units calls open. -/
def opens (calls : List MarkupCall) : Nat :=
  (calls.filterMap opened?).length

theorem opens_openUnit (label : String) (title : Option String) (node : Option Nat)
    (rest : List MarkupCall) : opens (.openUnit label title node :: rest) = opens rest + 1 := rfl

theorem opens_append (first later : List MarkupCall) :
    opens (first ++ later) = opens first + opens later := by
  rw [opens, List.filterMap_append, List.length_append, opens, opens]

variable {unit next : Nat} {around : List Nat}

/-- Calls before a unit is opened pass nothing while it is open. -/
theorem exists_around (calls : List MarkupCall) (earlier : ∀ id ∈ around, id < next) :
    ∃ left : List Nat, (∀ id ∈ left, id < next + opens calls) ∧
      ∀ unit, next + opens calls ≤ unit → ∀ rest, textsIn unit next around (calls ++ rest) =
        textsIn unit (next + opens calls) left rest := by
  induction calls generalizing next around with
  | nil => exact ⟨around, earlier, fun _ _ _ => rfl⟩
  | cons call others ih =>
    cases call with
    | openUnit label title node =>
      obtain ⟨left, before, same⟩ := @ih (next + 1) (next :: around)
        (List.forall_mem_cons.mpr ⟨Nat.lt_succ_self next, fun id hm =>
          Nat.lt_succ_of_lt (earlier id hm)⟩)
      have count : next + opens (.openUnit label title node :: others) =
          next + 1 + opens others := by
        rw [opens_openUnit]
        omega
      rw [count]
      exact ⟨left, before, same⟩
    | text content =>
      obtain ⟨left, before, same⟩ := ih earlier
      refine ⟨left, before, fun unit later rest => ?_⟩
      have outside : unit ∉ around := fun hm => by
        have := earlier unit hm
        have : next ≤ unit := Nat.le_trans (Nat.le_add_right _ _) later
        omega
      rw [List.cons_append, textsIn, if_neg outside, List.nil_append]
      exact same unit later rest
    | close => exact ih fun id hm => earlier id (List.mem_of_mem_tail hm)
    | assign => exact ih earlier

/-- Calls after a unit is closed pass nothing while it is open. -/
theorem textsIn_eq_nil (calls : List MarkupCall) (outside : unit ∉ around) (hopened : unit < next) :
    textsIn unit next around calls = [] := by
  induction calls generalizing next around with
  | nil => rfl
  | cons call others ih =>
    cases call with
    | openUnit =>
      refine ih (fun hm => ?_) (Nat.lt_succ_of_lt hopened)
      rcases List.mem_cons.mp hm with rfl | hm
      · exact Nat.lt_irrefl _ hopened
      · exact outside hm
    | text => rw [textsIn, if_neg outside, ih outside hopened, List.nil_append]
    | close => exact ih (fun hm => outside (List.mem_of_mem_tail hm)) hopened
    | assign => exact ih outside hopened

end MarkupCall

namespace Event

/-- An event as a call for building markup; sharing a unit leaves no mark. -/
def call? (indent : String) : Event → Option MarkupCall
  | openUnit label title node => some (.openUnit label title (some node))
  | text content => some (.text content)
  | pad level => some (.text (String.join (List.replicate level indent)))
  | close => some .close
  | share _ _ => none

def calls (indent : String) (events : List Event) : List MarkupCall :=
  events.filterMap (call? indent)

variable {indent : String}

theorem calls_append (first later : List Event) :
    calls indent (first ++ later) = calls indent first ++ calls indent later :=
  List.filterMap_append

theorem calls_unit (label : String) (title : Option String) (node : Nat) (inside : List Event) :
    calls indent (.openUnit label title node :: inside ++ [.close]) =
      .openUnit label title (some node) :: calls indent inside ++ [.close] :=
  congrArg (MarkupCall.openUnit label title (some node) :: ·) (calls_append inside [.close])

theorem texts_unit (label : String) (title : Option String) (node : Nat) (inside : List Event) :
    (calls indent (.openUnit label title node :: inside ++ [.close])).filterMap MarkupCall.text? =
      (calls indent inside).filterMap MarkupCall.text? := by
  rw [calls_unit, List.filterMap_append]
  exact List.append_nil _

/-- The label, the title and the node of a unit that is opened. -/
def opened? : Event → Option (String × Option String × Option Nat)
  | openUnit label title node => some (label, title, some node)
  | _ => none

theorem opened?_calls (indent : String) (events : List Event) :
    (calls indent events).filterMap MarkupCall.opened? = events.filterMap opened? := by
  rw [calls, List.filterMap_filterMap]
  refine List.filterMap_congr fun event _ => ?_
  cases event <;> rfl

/-- Events that are closed pass all their text to the units around them. -/
theorem Closed.textsIn_append {events : List Event} (hclosed : Closed events) {unit next : Nat}
    {around : List Nat} (inside : unit ∈ around) (rest : List MarkupCall) :
    MarkupCall.textsIn unit next around (calls indent events ++ rest) =
      (calls indent events).filterMap MarkupCall.text? ++
        MarkupCall.textsIn unit (next + MarkupCall.opens (calls indent events)) around rest := by
  induction hclosed generalizing next around rest with
  | nil => rfl
  | text content | pad level =>
    exact congrArg (· ++ MarkupCall.textsIn unit next around rest) (if_pos inside)
  | share node target => rfl
  | @unit label title node events _ ih =>
    have count : MarkupCall.opens
        (calls indent (.openUnit label title node :: events ++ [.close])) =
          MarkupCall.opens (calls indent events) + 1 := by
      rw [calls_unit, MarkupCall.opens_append]
      rfl
    rw [texts_unit, count, calls_unit, List.cons_append, List.cons_append, MarkupCall.textsIn,
      List.append_assoc, ih (List.mem_cons_of_mem _ inside), List.singleton_append,
      MarkupCall.textsIn, List.tail_cons, Nat.add_right_comm, Nat.add_assoc]
  | append _ _ first later =>
    rw [calls_append, List.append_assoc, first inside, later inside, List.filterMap_append,
      List.append_assoc, MarkupCall.opens_append, Nat.add_assoc]

/-- A unit holds the texts of the events between its opening and its end. -/
theorem Closed.textsIn_unit {inside : List Event} (hclosed : Closed inside)
    (before after : List MarkupCall) (label : String) (title : Option String) (node : Option Nat) :
    MarkupCall.textsIn (MarkupCall.opens before) 0 []
        (before ++ .openUnit label title node :: (calls indent inside ++ .close :: after)) =
      (calls indent inside).filterMap MarkupCall.text? := by
  obtain ⟨left, earlier, same⟩ := @MarkupCall.exists_around 0 [] before nofun
  rw [Nat.zero_add] at earlier same
  rw [same _ (Nat.le_refl _), MarkupCall.textsIn, hclosed.textsIn_append List.mem_cons_self,
    MarkupCall.textsIn, List.tail_cons, MarkupCall.textsIn_eq_nil _ _ _, List.append_nil]
  · exact fun hm => Nat.lt_irrefl _ (earlier _ hm)
  · omega

end Event

namespace Builder

theorem marks_run (indent : String) (builder : Builder) (events : List Event) :
    (events.foldl (apply indent) builder).marks = builder.marks ++
      MarkupCall.marks builder.next (builder.frame.map Prod.fst) (Event.calls indent events) := by
  induction events generalizing builder with
  | nil => exact (List.append_nil _).symm
  | cons event rest ih =>
    rw [List.foldl_cons, ih]
    cases event with
    | openUnit label title node => exact builder.marks_perform (.openUnit label title node) _
    | text content => exact builder.marks_perform (.text content) _
    | pad level => exact builder.marks_perform (.text (String.join (.replicate level indent))) _
    | close => exact builder.marks_perform .close _
    | share node target =>
      obtain ⟨nodeUnits, eq⟩ := builder.share_eq node target
      rw [apply, eq]
      rfl

end Builder

namespace Tree

variable {tree : Tree}

theorem marks_written (tree : Tree) (options : RenderOptions) :
    (tree.written options).marks =
      MarkupCall.marks 0 [] (Event.calls options.indent tree.events) :=
  Builder.marks_run options.indent {} tree.events

theorem numbered_render (tree : Tree) (options : RenderOptions) :
    (tree.render options).Numbered :=
  Builder.map_id_finish (tree.sound_written options).ids

/-- The nodes that the text of a tree writes, each at a place and a level of indentation. -/
inductive Stands (tree : Tree) : Node Nat → Place → Nat → Prop
  | root : tree.Stands tree.root .plain 0
  | child {node : Node Nat} {place : Place} {level : Nat} {edge : Edge (Node Nat)}
      (stands : tree.Stands node place level) (isEdge : edge ∈ node.edges)
      (kept : node.omits place edge = false) :
      tree.Stands edge.child (node.kind.placeOf edge.key edge.child.kind)
        (level + node.kind.deeperIn edge.key)

theorem Stands.mem_preorder (hr : tree.Regular) {node : Node Nat} {place : Place} {level : Nat}
    (hs : tree.Stands node place level) : node ∈ tree.root.preorder := by
  induction hs with
  | root => exact tree.root.self_mem_preorder
  | child _ he _ hm =>
    refine Node.mem_preorder_trans hm (Node.child_mem_preorder ?_)
    rw [← Node.map_child_edges (hr _ hm)]
    exact List.mem_map_of_mem he

/-- The events of a node that stands in a text are a stretch of those of the tree. -/
theorem Stands.infix_events (hr : tree.Regular) {node : Node Nat} {place : Place} {level : Nat}
    (hs : tree.Stands node place level) : node.events place level <:+: tree.events := by
  induction hs with
  | root => exact List.infix_refl _
  | @child node place level edge hs he hkept outside =>
    have hm := hs.mem_preorder hr
    have piece : node.seat edge ∈ node.pieces node.parts place :=
      (Node.keeps_pieces (hr node hm) place _ _ _).mpr ⟨edge, he, hkept, rfl⟩
    refine List.IsInfix.trans ?_ outside
    have inside : (node.seat edge).events level <:+:
        (node.pieces node.parts place).flatMap (Piece.events level) :=
      List.infix_of_mem_flatten (List.mem_map_of_mem piece)
    refine List.IsInfix.trans inside ?_
    rw [Node.events_eq, Node.framed_eq]
    split
    · exact List.infix_refl _
    · exact List.infix_append [_] _ [_]

/-- An event is the start or the end of the unit of a node that stands in the text, or comes from a
piece of such a node that writes no child. -/
theorem exists_stands_of_event (hr : tree.Regular) {event : Event}
    (hevent : event ∈ tree.events) : ∃ node place level, tree.Stands node place level ∧
      ((node.kind.isProgram = false ∧ (event = .close ∨
          event = .openUnit node.kind.heading.1 node.kind.heading.2 node.id)) ∨
        ∃ piece ∈ node.pieces node.parts place, event ∈ piece.events level ∧
          ∀ part at_ deeper, piece ≠ .child part at_ deeper) := by
  suffices below : ∀ (node : Node Nat) (place : Place) (level : Nat), tree.Stands node place level →
      event ∈ node.events place level → ∃ node place level, tree.Stands node place level ∧
        ((node.kind.isProgram = false ∧ (event = .close ∨
            event = .openUnit node.kind.heading.1 node.kind.heading.2 node.id)) ∨
          ∃ piece ∈ node.pieces node.parts place, event ∈ piece.events level ∧
            ∀ part at_ deeper, piece ≠ .child part at_ deeper) from
    below tree.root .plain 0 .root hevent
  intro node
  induction node using Node.induction with
  | step node ih =>
    intro place level hs hevent
    have hm := hs.mem_preorder hr
    rw [Node.events_eq, Node.framed_eq] at hevent
    by_cases inside : event ∈ (node.pieces node.parts place).flatMap (Piece.events level)
    · obtain ⟨piece, hpiece, fromPiece⟩ := List.mem_flatMap.mp inside
      cases piece with
      | text | pad | share =>
        exact ⟨node, place, level, hs, .inr ⟨_, hpiece, fromPiece, nofun⟩⟩
      | child part at_ deeper =>
        obtain ⟨edge, he, hkept, eq⟩ :=
          (Node.keeps_pieces (hr node hm) place _ _ _).mp hpiece
        cases eq
        have hc : edge.child ∈ node.children := by
          rw [← Node.map_child_edges (hr node hm)]
          exact List.mem_map_of_mem he
        exact ih _ hc _ _ (.child hs he hkept) fromPiece
    · split at hevent
      · exact absurd hevent inside
      next program =>
        refine ⟨node, place, level, hs, .inl ⟨by simpa using program, ?_⟩⟩
        rcases List.mem_cons.mp hevent with first | hevent
        · exact .inr first
        · exact .inl (List.mem_singleton.mp ((List.mem_append.mp hevent).resolve_left inside))

/-- A unit is opened for a node that stands in the text. -/
theorem exists_stands_of_openUnit (hr : tree.Regular) {label : String} {title : Option String}
    {id : Nat} (hopened : .openUnit label title id ∈ tree.events) :
    ∃ node place level, tree.Stands node place level ∧ node.id = id ∧
      node.kind.isProgram = false ∧ (label, title) = node.kind.heading := by
  obtain ⟨node, place, level, hs, ⟨program, eq | eq⟩ | ⟨piece, -, fromPiece, hc⟩⟩ :=
    exists_stands_of_event hr hopened
  · cases eq
  · cases eq
    exact ⟨node, place, level, hs, rfl, program, rfl⟩
  · cases piece with
    | text | pad | share => simp [Piece.events] at fromPiece
    | child => exact absurd rfl (hc _ _ _)

/-- The units are opened by the events of the tree, in that order. -/
theorem opened_render (tree : Tree) (options : RenderOptions) :
    (tree.render options).units.map (fun unit => (unit.label, unit.title, unit.node)) =
      tree.events.filterMap Event.opened? := by
  rw [← Event.opened?_calls options.indent]
  exact Builder.opened_of_marks (tree.marks_written options)

theorem unitText_render (tree : Tree) (options : RenderOptions) (u : Nat) :
    (tree.render options).unitText u = String.join
      (MarkupCall.textsIn u 0 [] (Event.calls options.indent tree.events)) :=
  Builder.unitText_of_marks (tree.marks_written options) (tree.numbered_render options) u

theorem Stands.exists_frame (hr : tree.Regular) {node : Node Nat} {place : Place} {level : Nat}
    (hs : tree.Stands node place level) (hp : node.kind.isProgram = false) :
    ∃ before inside after, Event.Closed inside ∧
      node.events place level =
        .openUnit node.kind.heading.1 node.kind.heading.2 node.id :: inside ++ [.close] ∧
      tree.events = before ++ node.events place level ++ after := by
  obtain ⟨before, after, eq⟩ := hs.infix_events hr
  exact ⟨before, _, after, closed_inside hr (hs.mem_preorder hr) place level,
    Node.events_of_not_program hp place level, eq.symm⟩

/-- A node that stands in the text has a unit of its own, which holds what the node writes. -/
theorem Stands.exists_unit (hr : tree.Regular) {node : Node Nat} {place : Place} {level : Nat}
    (hs : tree.Stands node place level) (hp : node.kind.isProgram = false)
    (options : RenderOptions) :
    ∃ u unit, (tree.render options).unit? u = some unit ∧ unit.node = some node.id ∧
      (unit.label, unit.title) = node.kind.heading ∧ (tree.render options).unitText u =
        String.join ((Event.calls options.indent (node.events place level)).filterMap
          MarkupCall.text?) := by
  obtain ⟨before, inside, after, hclosed, frame, events⟩ := hs.exists_frame hr hp
  have calls : Event.calls options.indent tree.events = Event.calls options.indent before ++
      .openUnit node.kind.heading.1 node.kind.heading.2 (some node.id) ::
        (Event.calls options.indent inside ++ .close :: Event.calls options.indent after) := by
    rw [events, frame]
    simp [Event.calls, Event.call?]
  have hopened := tree.opened_render options
  rw [← Event.opened?_calls options.indent, calls, List.filterMap_append] at hopened
  have hf : ((tree.render options).units.map fun unit => (unit.label, unit.title, unit.node))[
      MarkupCall.opens (Event.calls options.indent before)]? =
        some (node.kind.heading.1, node.kind.heading.2, some node.id) := by
    rw [hopened, MarkupCall.opens, List.getElem?_append_right (Nat.le_refl _), Nat.sub_self]
    rfl
  rw [List.getElem?_map, Option.map_eq_some_iff] at hf
  obtain ⟨unit, hf, eq⟩ := hf
  simp only [Prod.mk.injEq] at eq
  obtain ⟨label, title, hn⟩ := eq
  refine ⟨_, unit, hf, hn, Prod.ext label title, ?_⟩
  rw [unitText_render, calls, hclosed.textsIn_unit, frame, Event.texts_unit]

/-- The units of their own belong to the nodes that stand in the text. -/
theorem exists_stands_of_nodeFor? (hr : tree.Regular) {options : RenderOptions} {u id : Nat}
    (h : (tree.render options).nodeFor? u = some id) :
    ∃ node place level, tree.Stands node place level ∧ node.id = id ∧
      node.kind.isProgram = false := by
  obtain ⟨unit, hf, hn⟩ := Option.bind_eq_some_iff.mp h
  have hm := List.mem_map_of_mem (f := fun unit => (unit.label, unit.title, unit.node))
    (List.mem_of_getElem? hf)
  rw [opened_render, hn] at hm
  obtain ⟨event, hevent, eq⟩ := List.mem_filterMap.mp hm
  cases event with
  | openUnit label title node =>
    cases eq
    obtain ⟨node, place, level, hs, same, hp, -⟩ :=
      exists_stands_of_openUnit hr hevent
    exact ⟨node, place, level, hs, same, hp⟩
  | text | pad | close | share => cases eq

end Tree

end SyntaxMarkup
