import SyntaxMarkup.Proofs.Layout.Standing
import SyntaxMarkup.Proofs.Markup.Skeleton

namespace SyntaxMarkup

namespace MarkupCall

theorem ids_marks (next : Nat) (around : List Nat) (calls : List MarkupCall) :
    ((marks next around calls).filterMap Mark.start?).map MarkupUnit.id =
      List.range' next (opens calls) := by
  induction calls generalizing next around with
  | nil => rfl
  | cons call rest ih =>
    cases call with
    | openUnit => exact congrArg (next :: ·) (ih (next + 1) (next :: around))
    | text content =>
      rw [marks, List.filterMap_append, Mark.start?_chars]
      exact ih next around
    | close =>
      rw [marks, List.filterMap_append, List.map_append, ih]
      split <;> rfl
    | assign => exact ih next around

theorem exists_marks_append (next : Nat) (around : List Nat) (first later : List MarkupCall) :
    ∃ left, marks next around (first ++ later) =
      marks next around first ++ marks (next + opens first) left later := by
  induction first generalizing next around with
  | nil => exact ⟨around, rfl⟩
  | cons call rest ih =>
    cases call with
    | openUnit label title node =>
      obtain ⟨left, eq⟩ := ih (next + 1) (next :: around)
      rw [Nat.add_right_comm] at eq
      exact ⟨left, congrArg (_ :: ·) eq⟩
    | text content =>
      obtain ⟨left, eq⟩ := ih next around
      exact ⟨left, by rw [List.cons_append, marks, eq, ← List.append_assoc]; rfl⟩
    | close =>
      obtain ⟨left, eq⟩ := ih next around.tail
      exact ⟨left, by rw [List.cons_append, marks, eq, ← List.append_assoc]; rfl⟩
    | assign =>
      obtain ⟨left, eq⟩ := ih next around
      exact ⟨left, eq⟩

end MarkupCall

namespace Event

variable {indent : String} {events : List Event}

theorem opens_unit (label : String) (title : Option String) (node : Nat) (inside : List Event) :
    MarkupCall.opens (calls indent (.openUnit label title node :: inside ++ [.close])) =
      MarkupCall.opens (calls indent inside) + 1 := by
  rw [calls_unit, MarkupCall.opens_append]
  rfl

/-- After events that are closed the same units are open as before. -/
theorem Closed.marks_append (hclosed : Closed events) (next : Nat) (around : List Nat)
    (rest : List MarkupCall) :
    MarkupCall.marks next around (calls indent events ++ rest) =
      MarkupCall.marks next around (calls indent events) ++
        MarkupCall.marks (next + MarkupCall.opens (calls indent events)) around rest := by
  induction hclosed generalizing next around rest with
  | nil | share => rfl
  | text content | pad level =>
    exact congrArg (· ++ MarkupCall.marks next around rest) (List.append_nil _).symm
  | unit label title node _ ih =>
    rw [opens_unit, calls_unit, List.cons_append, List.cons_append, MarkupCall.marks,
      MarkupCall.marks, List.append_assoc, ih, ih, Nat.add_right_comm, Nat.add_assoc]
    simp [MarkupCall.marks]
  | append _ _ first later =>
    rw [calls_append, List.append_assoc, first, later, first, MarkupCall.opens_append,
      List.append_assoc, Nat.add_assoc]

theorem Closed.marks_unit (hclosed : Closed events) (label : String) (title : Option String)
    (node next : Nat) (around : List Nat) :
    MarkupCall.marks next around (calls indent (.openUnit label title node :: events ++ [.close])) =
      .start ⟨next, label, title, some node, around.head?, []⟩ ::
        MarkupCall.marks (next + 1) (next :: around) (calls indent events) ++ [.stop] := by
  rw [calls_unit, List.cons_append, MarkupCall.marks, hclosed.marks_append]
  rfl

theorem Closed.closed_marks (hclosed : Closed events) (next : Nat) (around : List Nat) :
    Mark.Closed (MarkupCall.marks next around (calls indent events)) := by
  induction hclosed generalizing next around with
  | nil | share => exact Mark.closed_nil
  | text content | pad level => exact (Mark.closed_chars _).append Mark.closed_nil
  | unit label title node hclosed ih =>
    rw [hclosed.marks_unit]
    exact (ih _ _).unit _
  | append hclosed _ first later =>
    rw [calls_append, hclosed.marks_append]
    exact (first _ _).append (later _ _)

/-- The characters written outside of leaves; `depth` units are open from the outermost leaf on. -/
def skeleton (indent : String) : (depth : Nat) → List Event → List Char
  | _, [] => []
  | depth, .openUnit label _ _ :: rest => skeleton indent (leafDepth depth label) rest
  | depth, .text content :: rest =>
    (if depth = 0 then content.toList else []) ++ skeleton indent depth rest
  | depth, .pad level :: rest =>
    (if depth = 0 then (String.join (List.replicate level indent)).toList else []) ++
      skeleton indent depth rest
  | depth, .close :: rest => skeleton indent (depth - 1) rest
  | depth, .share _ _ :: rest => skeleton indent depth rest

end Event

theorem Mark.skeleton_chars (depth : Nat) (chars : List Char) (rest : List Mark) :
    skeleton depth (chars.map .char ++ rest) =
      (if depth = 0 then chars else []) ++ skeleton depth rest := by
  induction chars with
  | nil => simp
  | cons c chars ih =>
    rw [List.map_cons, List.cons_append, skeleton, ih]
    split <;> rfl

namespace Event

variable {indent : String} {events : List Event}

theorem skeleton_marks {depth next : Nat} {around : List Nat} (hs : depth ≤ around.length) :
    Mark.skeleton depth (MarkupCall.marks next around (calls indent events)) =
      skeleton indent depth events := by
  induction events generalizing depth next around with
  | nil => rfl
  | cons event rest ih =>
    cases event with
    | openUnit label title node =>
      refine ih ?_
      rw [List.length_cons, leafDepth]
      split <;> omega
    | text content =>
      exact (Mark.skeleton_chars depth _ _).trans (congrArg (_ ++ ·) (ih hs))
    | pad level =>
      exact (Mark.skeleton_chars depth _ _).trans (congrArg (_ ++ ·) (ih hs))
    | close =>
      cases around with
      | nil =>
        obtain rfl := Nat.le_zero.mp hs
        exact ih (Nat.le_refl 0)
      | cons innermost others =>
        have hs : depth - 1 ≤ others.length := by
          rw [List.length_cons] at hs
          omega
        exact ih hs
    | share => exact ih hs

/-- Inside of a leaf nothing is written outside of leaves. -/
theorem Closed.skeleton_inLeaf (hclosed : Closed events) (depth : Nat) (rest : List Event) :
    skeleton indent (depth + 1) (events ++ rest) = skeleton indent (depth + 1) rest := by
  induction hclosed generalizing depth rest with
  | nil | text | pad | share => rfl
  | unit label title node _ ih =>
    rw [List.cons_append, List.cons_append, List.append_assoc, skeleton, leafDepth,
      if_neg fun h => Nat.succ_ne_zero depth h.1, ih]
    rfl
  | append _ _ first later => rw [List.append_assoc, first, later]

/-- After events that are closed as many units are open as before. -/
theorem Closed.skeleton_append (hclosed : Closed events) (rest : List Event) :
    skeleton indent 0 (events ++ rest) = skeleton indent 0 events ++ skeleton indent 0 rest := by
  induction hclosed generalizing rest with
  | nil | share => rfl
  | text | pad => exact congrArg (· ++ skeleton indent 0 rest) (List.append_nil _).symm
  | unit label title node hclosed ih =>
    rw [List.cons_append, List.cons_append, List.append_assoc, skeleton, skeleton]
    cases leaf : isLeafLabel label with
    | true =>
      rw [leafDepth, if_neg (by simp [leaf]), hclosed.skeleton_inLeaf, hclosed.skeleton_inLeaf]
      rfl
    | false =>
      rw [leafDepth, if_pos ⟨rfl, leaf⟩, ih, ih [.close], List.append_assoc]
      rfl
  | append _ _ first later => rw [List.append_assoc, first, later, first, List.append_assoc]

theorem Closed.skeleton_unit (hclosed : Closed events) (label : String) (title : Option String)
    (node : Nat) :
    skeleton indent 0 (.openUnit label title node :: events ++ [.close]) =
      if isLeafLabel label then [] else skeleton indent 0 events := by
  rw [List.cons_append, skeleton, leafDepth]
  cases isLeafLabel label with
  | true => exact hclosed.skeleton_inLeaf 0 [.close]
  | false => exact (hclosed.skeleton_append [.close]).trans (List.append_nil _)

end Event

namespace Tree

variable {tree : Tree} {options : RenderOptions}

/-- The unit for an opening has the number of those opened before it. -/
theorem nodeFor?_of_events {before after : List Event} {label : String} {title : Option String}
    {id : Nat} (events : tree.events = before ++ .openUnit label title id :: after) :
    (tree.render options).nodeFor? (MarkupCall.opens (Event.calls options.indent before)) =
      some id := by
  have count : MarkupCall.opens (Event.calls options.indent before) =
      (before.filterMap Event.opened?).length := by
    rw [MarkupCall.opens, Event.opened?_calls]
  have hf : (tree.events.filterMap Event.opened?)[(before.filterMap Event.opened?).length]? =
      some (label, title, some id) := by
    rw [events, List.filterMap_append, List.getElem?_append_right (Nat.le_refl _), Nat.sub_self]
    rfl
  rw [← tree.opened_render options, List.getElem?_map, Option.map_eq_some_iff] at hf
  obtain ⟨unit, hf, eq⟩ := hf
  rw [count, Document.nodeFor?, Document.unit?, hf]
  exact congrArg (·.2.2) eq

variable {node : Node Nat} {place : Place} {level : Nat}

/-- The unit of an opening inside a node has the number of those opened before it. -/
theorem Stands.number_of_events (hr : tree.Regular) (hs : tree.Stands node place level) :
    ∃ outside, ∀ {before after : List Event} {label : String} {title : Option String} {u id : Nat},
      node.events place level = before ++ .openUnit label title id :: after →
      (tree.render options).nodeFor? u = some id →
        u = outside + MarkupCall.opens (Event.calls options.indent before) := by
  obtain ⟨outer, later, eq⟩ := hs.infix_events hr
  refine ⟨MarkupCall.opens (Event.calls options.indent outer), ?_⟩
  intro before after label title u id events ho
  have whole : tree.events = (outer ++ before) ++ .openUnit label title id :: (after ++ later) := by
    rw [← eq, events]
    simp
  rw [← MarkupCall.opens_append, ← Event.calls_append]
  exact eq_of_nodeFor? hr ho (nodeFor?_of_events whole)

/-- A unit is met in the way that the events of its node tell. -/
theorem Stands.exists_marks (hr : tree.Regular) (hs : tree.Stands node place level)
    (hp : node.kind.isProgram = false) {u : Nat}
    (ho : (tree.render options).nodeFor? u = some node.id) :
    ∃ unit around, (tree.render options).unit? u = some unit ∧ unit.marks =
      MarkupCall.marks u around (Event.calls options.indent (node.events place level)) := by
  obtain ⟨before, inside, after, hclosed, frame, events⟩ := hs.exists_frame hr hp
  obtain ⟨unit, hf, -⟩ := Option.bind_eq_some_iff.mp ho
  have number : u = MarkupCall.opens (Event.calls options.indent before) := by
    have hopened : tree.events = before ++ .openUnit node.kind.heading.1 node.kind.heading.2
        node.id :: (inside ++ [.close] ++ after) := by
      rw [events, frame]
      simp
    exact eq_of_nodeFor? hr ho (nodeFor?_of_events hopened)
  obtain ⟨left, split⟩ := MarkupCall.exists_marks_append 0 []
    (Event.calls options.indent before) (Event.calls options.indent (node.events place level) ++
      Event.calls options.indent after)
  have marks := (tree.written options).marks_finish
  rw [tree.marks_written, events, Event.calls_append, Event.calls_append, List.append_assoc, split,
    Nat.zero_add, ← number, frame, (hclosed.unit _ _ _).marks_append, hclosed.marks_unit] at marks
  simp only [List.append_assoc, List.cons_append] at marks
  refine ⟨unit, left, hf, ?_⟩
  rw [frame, hclosed.marks_unit]
  exact (tree.numbered_render options).marks_eq hf rfl (hclosed.closed_marks _ _) marks

/-- Apart from its leaves a unit holds what its node writes apart from them. -/
theorem Stands.exists_skeleton (hr : tree.Regular) (hs : tree.Stands node place level)
    (hp : node.kind.isProgram = false) {u : Nat}
    (ho : (tree.render options).nodeFor? u = some node.id) :
    ∃ unit, (tree.render options).unit? u = some unit ∧
      unit.skeleton = Event.skeleton options.indent 0 (node.events place level) := by
  obtain ⟨unit, around, hf, marks⟩ := hs.exists_marks hr hp ho
  exact ⟨unit, hf, by rw [MarkupUnit.skeleton, marks, Event.skeleton_marks (Nat.zero_le _)]⟩

/-- The brackets around a unit are told from the events before it. -/
theorem Stands.bracketsAround?_eq (hr : tree.Regular) (hs : tree.Stands node place level)
    (hp : node.kind.isProgram = false) {u v id : Nat}
    (ho : (tree.render options).nodeFor? u = some node.id)
    (other : (tree.render options).nodeFor? v = some id)
    {before after : List Event} {label : String} {title : Option String}
    (events : node.events place level = before ++ .openUnit label title id :: after) :
    (tree.render options).bracketsAround? u v =
      Brackets.after? [] (Event.skeleton options.indent 0 before) := by
  obtain ⟨unit, around, hf, marks⟩ := hs.exists_marks hr hp ho
  obtain ⟨outside, number⟩ := @Stands.number_of_events tree options _ _ _ hr hs
  have first : node.events place level = [] ++ .openUnit node.kind.heading.1 node.kind.heading.2
      node.id :: ((node.pieces node.parts place).flatMap (Piece.events level) ++ [.close]) := by
    exact Node.events_of_not_program hp place level
  have start : u = outside := number first ho
  have number : v = u + MarkupCall.opens (Event.calls options.indent before) :=
    start ▸ number events other
  obtain ⟨left, split⟩ := MarkupCall.exists_marks_append u around
    (Event.calls options.indent before)
    (Event.calls options.indent (.openUnit label title id :: after))
  rw [events, Event.calls_append, split, ← number] at marks
  have met : Mark.before? v unit.marks =
      some (MarkupCall.marks u around (Event.calls options.indent before)) := by
    rw [marks]
    have new : v ∉ ((MarkupCall.marks u around (Event.calls options.indent before)).filterMap
        Mark.start?).map MarkupUnit.id := by
      rw [MarkupCall.ids_marks, List.mem_range'_1]
      exact fun hk => Nat.ne_of_lt hk.2 number
    exact @Mark.before?_append _ _ ⟨v, label, title, some id, left.head?, []⟩ new
  rw [Document.bracketsAround?, hf, Option.bind_eq_bind, Option.bind_some, met,
    Option.bind_eq_bind, Option.bind_some, Event.skeleton_marks (Nat.zero_le _)]

end Tree

end SyntaxMarkup
