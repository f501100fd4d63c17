import SyntaxMarkup.Proofs.Layout.Sharing
import SyntaxMarkup.Proofs.Layout.Skeleton
import SyntaxMarkup.Proofs.Markup.Items

namespace SyntaxMarkup

namespace Event

variable {indent : String} {unit : Nat → Nat} {events : List Event}

/-- What is written outside of the units, with the units themselves as `unit` tells them from their
nodes; `depth` of them are open. -/
def items (indent : String) (unit : Nat → Nat) : (depth : Nat) → List Event → List Item
  | _, [] => []
  | depth, .openUnit _ _ node :: rest =>
    (if depth = 0 then [.inner (unit node)] else []) ++ items indent unit (depth + 1) rest
  | depth, .text content :: rest =>
    (if depth = 0 then content.toList.map .char else []) ++ items indent unit depth rest
  | depth, .pad level :: rest =>
    (if depth = 0 then (String.join (List.replicate level indent)).toList.map .char else []) ++
      items indent unit depth rest
  | depth, .close :: rest => items indent unit (depth - 1) rest
  | depth, .share _ _ :: rest => items indent unit depth rest

theorem items_marks {depth next : Nat} {around : List Nat} (hs : depth ≤ around.length)
    (hagree : ∀ heading node, .start heading ∈ MarkupCall.marks next around (calls indent events) →
      heading.node = some node → unit node = heading.id) :
    Mark.items depth (MarkupCall.marks next around (calls indent events)) =
      items indent unit depth events := by
  induction events generalizing depth next around with
  | nil => rfl
  | cons event rest ih =>
    cases event with
    | openUnit label title node =>
      have first : unit node = next := hagree _ _ List.mem_cons_self rfl
      have later := @ih (depth + 1) (next + 1) (next :: around) (Nat.succ_le_succ hs)
        fun heading node hm => hagree heading node (List.mem_cons_of_mem _ hm)
      rw [items, first, ← later]
      rfl
    | text content =>
      exact (Mark.items_chars depth _ _).trans (congrArg (_ ++ ·) (ih hs
        fun heading node hm => hagree heading node (List.mem_append_right _ hm)))
    | pad level =>
      exact (Mark.items_chars depth _ _).trans (congrArg (_ ++ ·) (ih hs
        fun heading node hm => hagree heading node (List.mem_append_right _ hm)))
    | close =>
      cases around with
      | nil =>
        obtain rfl := Nat.le_zero.mp hs
        exact ih (Nat.le_refl 0) hagree
      | cons innermost others =>
        have hs : depth - 1 ≤ others.length := by
          rw [List.length_cons] at hs
          omega
        exact ih hs fun heading node hm => hagree heading node (List.mem_cons_of_mem _ hm)
    | share => exact ih hs hagree

/-- Inside of a unit nothing is written outside of it. -/
theorem Closed.items_inside (hclosed : Closed events) (depth : Nat) (rest : List Event) :
    items indent unit (depth + 1) (events ++ rest) = items indent unit (depth + 1) rest := by
  induction hclosed generalizing depth rest with
  | nil | text | pad | share => rfl
  | unit label title node _ ih =>
    rw [List.cons_append, List.cons_append, List.append_assoc, items, ih]
    rfl
  | append _ _ first later => rw [List.append_assoc, first, later]

theorem Closed.items_append (hclosed : Closed events) (rest : List Event) :
    items indent unit 0 (events ++ rest) =
      items indent unit 0 events ++ items indent unit 0 rest := by
  induction hclosed generalizing rest with
  | nil | share => rfl
  | text | pad => exact congrArg (· ++ items indent unit 0 rest) (List.append_nil _).symm
  | unit label title node hclosed =>
    rw [List.cons_append, List.cons_append, List.append_assoc, items, items, hclosed.items_inside,
      hclosed.items_inside]
    rfl
  | append _ _ first later => rw [List.append_assoc, first, later, first, List.append_assoc]

theorem Closed.items_unit (hclosed : Closed events) (label : String) (title : Option String)
    (node : Nat) :
    items indent unit 0 (.openUnit label title node :: events ++ [.close]) =
      [.inner (unit node)] := by
  rw [List.cons_append, items, hclosed.items_inside]
  rfl

end Event

namespace Piece

variable {indent : String} {unit : Nat → Nat} {level : Nat}

/-- What pieces write outside of the units of the children, with these units. -/
def items (indent : String) (unit : Nat → Nat) (level : Nat) (pieces : List Piece) : List Item :=
  Event.items indent unit 0 (pieces.flatMap (events level))

theorem items_append {first : List Piece} (hclosed : Event.Closed (first.flatMap (events level)))
    (rest : List Piece) : items indent unit level (first ++ rest) =
      items indent unit level first ++ items indent unit level rest := by
  rw [items, List.flatMap_append, hclosed.items_append]
  rfl

theorem items_lit (content : String) :
    items indent unit level (lit content) = content.toList.map .char :=
  List.append_nil _

theorem items_lit_append (content : String) (rest : List Piece) :
    items indent unit level (lit content ++ rest) =
      content.toList.map .char ++ items indent unit level rest := by
  have hclosed : Event.Closed ((lit content).flatMap (events level)) := .text content
  rw [items_append hclosed, items_lit]

/-- What is written between separators is what each part writes, between them. -/
theorem items_separated (separator : String) {parts : List (List Piece)}
    (hclosed : ∀ part ∈ parts, Event.Closed (part.flatMap (events level))) :
    items indent unit level (separated (lit separator) parts) =
      (separator.toList.map Item.char).intercalate (parts.map (items indent unit level)) := by
  induction parts with
  | nil => rfl
  | cons first rest ih =>
    obtain ⟨here, later⟩ := List.forall_mem_cons.mp hclosed
    cases rest with
    | nil => simp [separated]
    | cons next rest =>
      have split : separated (lit separator) (first :: next :: rest) =
          first ++ (lit separator ++ separated (lit separator) (next :: rest)) := by
        simp [separated]
      rw [split, items_append here, items_lit_append, ih later]
      simp only [List.map_cons, List.intercalate_cons_cons, List.append_assoc]

theorem closed_separated (separator : String) {parts : List (List Piece)}
    (hclosed : ∀ part ∈ parts, Event.Closed (part.flatMap (events level))) :
    Event.Closed ((separated (lit separator) parts).flatMap (events level)) := by
  cases parts with
  | nil => exact .nil
  | cons first rest =>
    obtain ⟨here, later⟩ := List.forall_mem_cons.mp hclosed
    rw [separated_cons, List.flatMap_append, List.flatMap_assoc]
    refine .append here (Event.closed_flatMap fun part hm => ?_)
    exact Event.Closed.append (.text separator) (later part hm)

/-- A child that is written in a unit of its own. -/
structure Framed (indent : String) (unit : Nat → Nat) (level : Nat) (part : Part) : Prop where
  closed : Event.Closed ((plain part).flatMap (events level))
  items : Piece.items indent unit level (plain part) = [.inner (unit part.node.id)]

/-- What the place of an element in an array writes: nothing for a hole. -/
def element (part : Option Part) : List Piece :=
  part.elim [] (atLeast .assignment)

section Element

variable {part : Option Part} (hframed : ∀ child ∈ part, Framed indent unit level child)

include hframed

theorem closed_element : Event.Closed ((element part).flatMap (events level)) := by
  cases part with
  | none => exact .nil
  | some child =>
    have hclosed := (hframed child rfl).closed
    rw [element, Option.elim_some, atLeast]
    split
    · rw [List.flatMap_append, List.flatMap_append]
      exact .append (.append (.text "(") hclosed) (.text ")")
    · exact hclosed

theorem tells_element : Item.Tells (items indent unit level (element part))
    (part.map fun child => unit child.node.id) := by
  cases part with
  | none => exact Item.tells_hole
  | some child =>
    obtain ⟨hclosed, hw⟩ := hframed child rfl
    rw [element, Option.elim_some, atLeast]
    split
    · rw [List.append_assoc, items_lit_append, items_append hclosed, hw, items_lit]
      exact Item.tells_parentheses _
    · rw [hw]
      exact Item.tells_inner _

end Element

variable {parts : List (Option Part)}
  (hframed : ∀ part ∈ parts, ∀ child ∈ part, Framed indent unit level child)

include hframed

theorem items_sparseCommas (rest : List Piece) :
    items indent unit level (sparseCommas parts ++ rest) =
      Item.arrayLine ((parts.map element).map (items indent unit level))
        (parts.map (·.map fun child => unit child.node.id)) ++ items indent unit level rest := by
  have hclosed : ∀ part ∈ parts.map element, Event.Closed (part.flatMap (events level)) :=
    List.forall_mem_map.mpr fun part hm => closed_element (hframed part hm)
  have same : sparseCommas parts = separated (lit ", ") (parts.map element) ++
      litIf (parts.getLast?.any Option.isNone) "," := rfl
  have ending : ((parts.map (·.map fun child => unit child.node.id)).getLast?.any Option.isNone) =
      parts.getLast?.any Option.isNone := by
    rw [List.getLast?_map, Option.any_map]
    simp
  rw [same, List.append_assoc, items_append (closed_separated ", " hclosed),
    items_separated ", " hclosed, Item.arrayLine, ending, List.append_assoc]
  cases parts.getLast?.any Option.isNone with
  | true => rw [litIf, if_pos rfl, items_lit_append]; rfl
  | false => rfl

/-- The elements of an array are read back from what it writes. -/
theorem slots?_sparseCommas :
    Item.slots? (items indent unit level (lit "[" ++ sparseCommas parts ++ lit "]")) =
      some (parts.map (·.map fun child => unit child.node.id)) := by
  have tell : List.Forall₂ Item.Tells ((parts.map element).map (items indent unit level))
      (parts.map (·.map fun child => unit child.node.id)) := by
    rw [List.map_map, List.forall₂_map_left_iff, List.forall₂_map_right_iff, List.forall₂_same]
    exact fun part hm => tells_element (hframed part hm)
  rw [List.append_assoc, items_lit_append, items_sparseCommas hframed, items_lit]
  exact Item.slots?_arrayLine tell

end Piece

namespace Node

theorem exists_elements {node : Node Nat} (hr : node.Regular)
    (array : node.kind = .arrayExpression ∨ node.kind = .arrayPattern) :
    ∃ elements, node.slots = [.sparse elements] ∧
      ∀ place, node.pieces node.parts place =
        Piece.lit "[" ++ Piece.sparseCommas (elements.map (·.map part)) ++ Piece.lit "]" := by
  have hl : node.kind.fields? = some [("elements", .sparse)] := by
    rcases array with hk | hk <;> rw [hk] <;> rfl
  have hf := fits_slots hr hl
  generalize shape : node.slots = slots at hf
  cases hf with
  | @sparse elements _ _ rest =>
    cases rest
    refine ⟨elements, rfl, fun place => ?_⟩
    rcases array with hk | hk <;>
      simp [pieces, hk, parts, shape, Slot.map, Template.pieces]

end Node

namespace Tree

variable {tree : Tree} {options : RenderOptions} {node : Node Nat} {place : Place} {level : Nat}

theorem framed_part (hr : tree.Regular) (hm : node ∈ tree.root.preorder)
    (hp : node.kind.isProgram = false) (indent : String) (unit : Nat → Nat) (level : Nat) :
    Piece.Framed indent unit level node.part := by
  have hclosed := closed_inside hr hm .plain level
  have hw : (Piece.plain node.part).flatMap (Piece.events level) =
      .openUnit node.kind.heading.1 node.kind.heading.2 node.id ::
        (node.pieces node.parts .plain).flatMap (Piece.events level) ++ [.close] := by
    rw [← Node.events_of_not_program hp, Piece.plain, List.flatMap_singleton]
    rfl
  refine ⟨?_, ?_⟩
  · rw [hw]
    exact hclosed.unit _ _ _
  · rw [Piece.items, hw]
    exact hclosed.items_unit _ _ node.id

/-- What a unit holds is what its node writes, with the units that the children have. -/
theorem Stands.exists_items (hr : tree.Regular) (hs : tree.Stands node place level)
    (hp : node.kind.isProgram = false) {u : Nat}
    (ho : (tree.render options).nodeFor? u = some node.id) :
    ∃ unit, (tree.render options).unit? u = some unit ∧ Fragment.items unit.children =
      Piece.items options.indent (fun id => ((tree.render options).unitFor? id).getD 0) level
        (node.pieces node.parts place) := by
  obtain ⟨unit, around, hf, marks⟩ := hs.exists_marks hr hp ho
  have hclosed := closed_inside hr (hs.mem_preorder hr) place level
  have outer : unit.marks <:+: Fragment.marksOf none (tree.render options).roots :=
    Fragment.infix_marksOf none _ _ (List.mem_of_getElem? hf)
  rw [Node.events_of_not_program hp, hclosed.marks_unit] at marks
  have inside := List.append_cancel_right (List.cons.inj marks).2
  refine ⟨unit, hf, ?_⟩
  rw [← Fragment.items_marksOf (some unit.id), inside]
  refine Event.items_marks (Nat.zero_le _) fun heading id met hn => ?_
  have met : .start heading ∈ unit.marks := by
    rw [marks]
    exact List.mem_cons_of_mem _ (List.mem_append_left _ met)
  have ho := (tree.numbered_render options).nodeFor?_of_start (outer.subset met)
  rw [hn] at ho
  rw [unitFor?_of_nodeFor? hr ho, Option.getD_some]

/-- A child of an array stands in the text, and has a unit of its own unless it is a program. -/
theorem Stands.exists_unit_of_element (hr : tree.Regular)
    (hs : tree.Stands node place level)
    (array : node.kind = .arrayExpression ∨ node.kind = .arrayPattern) {element : Node Nat}
    (helement : element ∈ node.children) (hp : element.kind.isProgram = false)
    (options : RenderOptions) : ∃ v, (tree.render options).nodeFor? v = some element.id ∧
      (tree.render options).unitFor? element.id = some v := by
  have hm := hs.mem_preorder hr
  rw [← Node.map_child_edges (hr node hm)] at helement
  obtain ⟨edge, he, rfl⟩ := List.mem_map.mp helement
  have hkept : node.omits place edge = false := by
    rcases array with hk | hk <;>
      simp [Node.omits, Node.leavesOut, hk, Kind.isFunctionExpression]
  obtain ⟨v, unit, hf, hn, -⟩ :=
    (hs.child he hkept).exists_unit hr hp options
  have ho : (tree.render options).nodeFor? v = some edge.child.id :=
    Option.bind_eq_some_iff.mpr ⟨unit, hf, hn⟩
  exact ⟨v, ho, unitFor?_of_nodeFor? hr ho⟩

/-- The unit of an array in the markup of a lowered tree tells the elements of the array: as many
slots in the same order, with the same holes, and the own units of the elements in the others. -/
theorem elements_of_ofJson {value : Json} (h : Tree.ofJson value = .ok tree)
    (options : RenderOptions) (mem : node ∈ tree.root.preorder)
    (array : node.kind = .arrayExpression ∨ node.kind = .arrayPattern)
    (noProgram : ∀ element ∈ node.children, element.kind.isProgram = false) {u : Nat}
    (own : (tree.render options).nodeFor? u = some node.id) :
    ∃ elements unit slots, node.slots = [.sparse elements] ∧
      (tree.render options).unit? u = some unit ∧
      Item.slots? (Fragment.items unit.children) = some slots ∧
      List.Forall₂ (Option.Rel fun element v =>
        (tree.render options).nodeFor? v = some element.id ∧
          (tree.render options).unitFor? element.id = some v) elements slots := by
  have hr := regular_of_ofJson h
  obtain ⟨other, place, level, hs, same, ownProgram⟩ := exists_stands_of_nodeFor? hr own
  have hk := node?_id (hs.mem_preorder hr)
  rw [same, node?_id mem] at hk
  cases hk
  obtain ⟨elements, shape, hw⟩ := Node.exists_elements (hr node mem) array
  obtain ⟨unit, hf, items⟩ := hs.exists_items hr ownProgram own
  have hc {element : Node Nat} (helement : some element ∈ elements) :
      element ∈ node.children := by
    simpa [Node.children, shape, Slot.children] using helement
  have hframed : ∀ part ∈ elements.map (·.map Node.part), ∀ child ∈ part,
      Piece.Framed options.indent (fun id => ((tree.render options).unitFor? id).getD 0) level
        child := by
    refine List.forall_mem_map.mpr fun element helement child hp => ?_
    obtain ⟨element, rfl, rfl⟩ := Option.map_eq_some_iff.mp hp
    have ht := Node.mem_preorder_trans mem (Node.child_mem_preorder (hc helement))
    exact framed_part hr ht (noProgram element (hc helement)) _ _ _
  have hread := Piece.slots?_sparseCommas hframed
  rw [← hw place, ← items] at hread
  refine ⟨elements, unit, _, shape, hf, hread, ?_⟩
  rw [List.map_map, List.forall₂_map_right_iff, List.forall₂_same]
  intro element helement
  cases element with
  | none => exact .none
  | some element =>
    obtain ⟨v, own, hshown⟩ := hs.exists_unit_of_element hr array (hc helement)
      (noProgram element (hc helement)) options
    refine .some ⟨?_, ?_⟩
    · simpa [hshown] using own
    · simp [hshown]

def holedSample : Json :=
  .ofNode "Program" [("body", .array [.ofNode "ExpressionStatement"
    [("expression", .ofNode "ArrayExpression" [("elements", .array
      [.null, .ofNode "SequenceExpression" [("expressions", .array
          [.ofNode "Identifier" [("name", .string "a")],
            .ofNode "Literal" [("raw", .string "','")]])],
        .null, .null, .ofNode "Identifier" [("name", .string "b")], .null])])]])]

/-- The array is written `[, (a, ','), , , b, ,]`. -/
theorem elements_of_holedSample : ∃ tree node elements, ofJson holedSample = .ok tree ∧
    node ∈ tree.root.preorder ∧ node.slots = [.sparse elements] ∧
    (∃ unit, (tree.render {}).unit? 1 = some unit ∧
      Item.slots? (Fragment.items unit.children) =
        some [none, some 2, none, none, some 5, none]) ∧
    List.Forall₂ (Option.Rel fun element v => (tree.render {}).nodeFor? v = some element.id ∧
        (tree.render {}).unitFor? element.id = some v)
      elements [none, some 2, none, none, some 5, none] := by
  obtain ⟨tree, hj, facts⟩ := exists_of_ofJson
    (f := fun tree => ((tree.render {}).nodeFor? 1, (tree.node? 4).map (fun node =>
        (node.kind, node.children.map (·.kind.isProgram))),
      ((tree.render {}).unit? 1).bind fun unit => Item.slots? (Fragment.items unit.children)))
    (b := (some 4, some (.arrayExpression, [false, false]),
      some [none, some 2, none, none, some 5, none]))
    (by decide +kernel : (ofJson holedSample).toOption.map _ = some _)
  simp only [Prod.mk.injEq, Option.map_eq_some_iff] at facts
  obtain ⟨ho, ⟨node, hf, array, children⟩, hr⟩ := facts
  obtain ⟨hm, same⟩ := node?_eq_some_iff.mp hf
  have hp : ∀ element ∈ node.children, element.kind.isProgram = false := by
    intro element helement
    have hk := List.mem_map_of_mem (f := fun child : Node Nat => child.kind.isProgram) helement
    rw [children] at hk
    simpa using hk
  obtain ⟨elements, unit, slots, shape, hf, told, same⟩ :=
    elements_of_ofJson hj {} hm (.inl array) hp (same ▸ ho)
  rw [hf, Option.bind_some, told] at hr
  cases hr
  exact ⟨tree, node, elements, hj, hm, shape, ⟨unit, hf, told⟩, same⟩

end Tree

end SyntaxMarkup
