import SyntaxMarkup.Proofs.Layout.Units

namespace SyntaxMarkup

variable {α β ι κ : Type}

namespace Kind

theorem leading?_map (f : α → β) (kind : Kind) (slots : List (Slot α)) :
    kind.leading? (slots.map (·.map f)) = (kind.leading? slots).map f := by
  cases kind with
  | updateExpression operator leading =>
    cases leading <;> rcases slots with - | ⟨- | - | (- | -) | -, -⟩ <;> rfl
  | _ => rcases slots with - | ⟨- | - | (- | -) | -, -⟩ <;> rfl

theorem mem_of_leading? {kind : Kind} {slots : List (Slot α)} {child : α}
    (h : kind.leading? slots = some child) : child ∈ slots.flatMap Slot.children := by
  unfold leading? at h
  split at h <;> cases h <;> simp [Slot.children]

theorem calleeBase?_map (f : α → β) (kind : Kind) (slots : List (Slot α)) :
    kind.calleeBase? (slots.map (·.map f)) = (kind.calleeBase? slots).map f := by
  cases kind <;> rcases slots with - | ⟨- | - | - | -, -⟩ <;> rfl

theorem mem_of_calleeBase? {kind : Kind} {slots : List (Slot α)} {child : α}
    (h : kind.calleeBase? slots = some child) : child ∈ slots.flatMap Slot.children := by
  unfold calleeBase? at h
  split at h <;> cases h <;> simp [Slot.children]

end Kind

namespace Node

theorem map_slot_fields (node : Node ι) (f : Node ι → α) :
    (node.fields.map (·.map f)).map Field.slot = node.slots.map (·.map f) := by
  rw [slots, List.map_map, List.map_map]
  rfl

theorem firstKind_eq (node : Node ι) :
    node.firstKind = (node.kind.leading? node.slots).elim node.kind firstKind := by
  conv_lhs => rw [firstKind, fold_eq]
  rw [map_slot_fields, Kind.leading?_map, Option.elim_map]
  rfl

theorem containsCall_eq (node : Node ι) : node.containsCall =
    (node.kind.isCall || (node.kind.calleeBase? node.slots).elim false containsCall) := by
  conv_lhs => rw [containsCall, fold_eq]
  rw [map_slot_fields, Kind.calleeBase?_map, Option.elim_map]
  rfl

section Walks

variable (number : ι → κ) (span : Option Span → Option Span) (node : Node ι)

theorem id_rebuild : (node.rebuild number span).id = number node.id := by
  rw [rebuild_eq]
  rfl

theorem slots_rebuild :
    (node.rebuild number span).slots = node.slots.map (·.map (rebuild number span)) := by
  rw [rebuild_eq, ← map_slot_fields]
  rfl

theorem firstKind_rebuild : (node.rebuild number span).firstKind = node.firstKind := by
  induction node using induction with
  | step node ih =>
    rw [firstKind_eq, firstKind_eq, kind_rebuild, slots_rebuild, Kind.leading?_map]
    cases leading : node.kind.leading? node.slots with
    | none => rfl
    | some child => exact ih child (Kind.mem_of_leading? leading)

theorem startsWithBrace_rebuild :
    (node.rebuild number span).startsWithBrace = node.startsWithBrace := by
  rw [startsWithBrace, firstKind_rebuild, ← startsWithBrace]

theorem startsWithDeclaration_rebuild :
    (node.rebuild number span).startsWithDeclaration = node.startsWithDeclaration := by
  rw [startsWithDeclaration, firstKind_rebuild, ← startsWithDeclaration]

theorem containsCall_rebuild : (node.rebuild number span).containsCall = node.containsCall := by
  induction node using induction with
  | step node ih =>
    rw [containsCall_eq, containsCall_eq, kind_rebuild, slots_rebuild, Kind.calleeBase?_map]
    cases base : node.kind.calleeBase? node.slots with
    | none => rfl
    | some child =>
      exact congrArg (_ || ·) (ih child (Kind.mem_of_calleeBase? base))

theorem sameName_rebuild (other : Node ι) :
    (node.rebuild number span).sameName (other.rebuild number span) = node.sameName other := by
  rw [sameName, kind_rebuild, kind_rebuild, ← sameName]

theorem named_rebuild :
    (node.rebuild number span).named = node.named.rebuild number span := by
  unfold named
  rw [kind_rebuild, slots_rebuild]
  cases node.kind <;> rcases node.slots with - | ⟨- | - | - | -, -⟩ <;> rfl

end Walks

end Node

/-- The event with other numbers. -/
def Event.renumber (number : Nat → Nat) : Event → Event
  | .openUnit label title node => .openUnit label title (number node)
  | .share node target => .share (number node) (number target)
  | event => event

/-- The part with other numbers, and the events that go with them. -/
def Computed.renumber (number : Nat → Nat) (span : Option Span → Option Span) (part : Part) :
    Part :=
  ⟨part.node.rebuild number span, fun place level =>
    (part.value place level).map (Event.renumber number)⟩

namespace Piece

def renumber (number : Nat → Nat) (span : Option Span → Option Span) : Piece → Piece
  | text content => .text content
  | pad deeper => .pad deeper
  | child part place deeper => .child (part.renumber number span) place deeper
  | share node target => .share (number node) (number target)

section Renumber

variable (number : Nat → Nat) (span : Option Span → Option Span)

theorem events_renumber (level : Nat) (piece : Piece) :
    (piece.renumber number span).events level =
      (piece.events level).map (Event.renumber number) := by
  cases piece <;> rfl

@[simp] theorem kind_renumber (part : Part) :
    (part.renumber number span).node.kind = part.node.kind :=
  part.node.kind_rebuild number span

@[simp] theorem startsWithBrace_renumber (part : Part) :
    (part.renumber number span).node.startsWithBrace = part.node.startsWithBrace :=
  part.node.startsWithBrace_rebuild number span

@[simp] theorem startsWithDeclaration_renumber (part : Part) :
    (part.renumber number span).node.startsWithDeclaration = part.node.startsWithDeclaration :=
  part.node.startsWithDeclaration_rebuild number span

@[simp] theorem containsCall_renumber (part : Part) :
    (part.renumber number span).node.containsCall = part.node.containsCall :=
  part.node.containsCall_rebuild number span

@[simp] theorem map_lit (content : String) :
    (lit content).map (renumber number span) = lit content := rfl

@[simp] theorem map_litIf (flag : Bool) (content : String) :
    (litIf flag content).map (renumber number span) = litIf flag content := by
  cases flag <;> rfl

@[simp] theorem map_plain (part : Part) :
    (plain part).map (renumber number span) = plain (part.renumber number span) := rfl

@[simp] theorem map_atLeast (least : Strength) (part : Part) :
    (atLeast least part).map (renumber number span) =
      atLeast least (part.renumber number span) := by
  unfold atLeast
  rw [kind_renumber]
  split <;> simp

theorem map_given {before : String} {write : Part → List Piece} (part : Option Part)
    (h : ∀ part, (write part).map (renumber number span) = write (part.renumber number span)) :
    (given before write part).map (renumber number span) =
      given before write (part.map (·.renumber number span)) := by
  cases part with
  | none => rfl
  | some part => simp [given, h]

@[simp] theorem map_given_plain (before : String) (part : Option Part) :
    (given before plain part).map (renumber number span) =
      given before plain (part.map (·.renumber number span)) :=
  map_given number span part (map_plain number span)

@[simp] theorem map_given_atLeast (before : String) (least : Strength) (part : Option Part) :
    (given before (atLeast least) part).map (renumber number span) =
      given before (atLeast least) (part.map (·.renumber number span)) :=
  map_given number span part (map_atLeast number span least)

@[simp] theorem map_separated (separator : List Piece) (items : List (List Piece)) :
    (separated separator items).map (renumber number span) =
      separated (separator.map (renumber number span))
        (items.map (·.map (renumber number span))) := by
  cases items with
  | nil => rfl
  | cons item rest => simp [separated_cons, List.map_flatMap, List.flatMap_map]

@[simp] theorem map_commas (parts : List Part) :
    (commas parts).map (renumber number span) = commas (parts.map (·.renumber number span)) := by
  simp [commas, Function.comp_def]

@[simp] theorem map_sparseCommas (parts : List (Option Part)) :
    (sparseCommas parts).map (renumber number span) =
      sparseCommas (parts.map (·.map (·.renumber number span))) := by
  have items : (parts.map fun part => part.elim [] (atLeast .assignment)).map
      (·.map (renumber number span)) = (parts.map (·.map (·.renumber number span))).map
        fun part => part.elim [] (atLeast .assignment) := by
    rw [List.map_map, List.map_map]
    refine List.map_congr_left fun part _ => ?_
    cases part <;> simp
  have last : (parts.map (·.map (·.renumber number span))).getLast?.any Option.isNone =
      parts.getLast?.any Option.isNone := by
    rw [List.getLast?_map, Option.any_map]
    refine congrArg (parts.getLast?.any ·) (funext fun part => ?_)
    exact Option.isNone_map
  rw [sparseCommas, sparseCommas, last, List.map_append, map_separated, items, map_lit, map_litIf]

@[simp] theorem map_lines (parts : List Part) :
    (lines parts).map (renumber number span) = lines (parts.map (·.renumber number span)) := by
  simp [lines, Function.comp_def, renumber]

@[simp] theorem map_block (parts : List Part) :
    (block parts).map (renumber number span) = block (parts.map (·.renumber number span)) := by
  cases parts with
  | nil => rfl
  | cons part rest => simp [block, renumber, List.flatMap_map, List.map_flatMap]

@[simp] theorem map_braces (parts : List Part) :
    (braces parts).map (renumber number span) = braces (parts.map (·.renumber number span)) := by
  cases parts with
  | nil => rfl
  | cons part rest => simp [braces]

@[simp] theorem map_key (computed : Bool) (part : Part) :
    (key computed part).map (renumber number span) = key computed (part.renumber number span) := by
  cases computed <;> simp [key]

@[simp] theorem map_header (part : Part) :
    (header part).map (renumber number span) = header (part.renumber number span) := by
  unfold header
  rw [kind_renumber]
  split
  · rfl
  · exact map_atLeast number span _ part

@[simp] theorem map_parameters (params : List Part) (body : Part) :
    (parameters params body).map (renumber number span) =
      parameters (params.map (·.renumber number span)) (body.renumber number span) := by
  simp [parameters]

@[simp] theorem map_method (computed : Bool) (methodKey value : Part) :
    (method computed methodKey value).map (renumber number span) =
      method computed (methodKey.renumber number span) (value.renumber number span) := by
  unfold method
  rw [kind_renumber]
  split
  · simp [renumber]
  · simp

@[simp] theorem map_renamed (name other : Part) :
    (renamed name other).map (renumber number span) =
      renamed (name.renumber number span) (other.renumber number span) := by
  have same : (name.renumber number span).node.sameName (other.renumber number span).node =
      name.node.sameName other.node :=
    name.node.sameName_rebuild number span other.node
  unfold renamed
  rw [same]
  split
  · simp [renumber, Computed.renumber, Node.id_rebuild]
  · simp

theorem map_elim {none : List Piece} {write : Part → List Piece} (part : Option Part)
    (h : none.map (renumber number span) = none)
    (h' : ∀ part, (write part).map (renumber number span) = write (part.renumber number span)) :
    (part.elim none write).map (renumber number span) =
      part.elim none fun part => write (part.renumber number span) := by
  cases part with
  | none => exact h
  | some part => exact h' part

end Renumber

end Piece

namespace Template

open Piece

section Renumber

variable (number : Nat → Nat) (span : Option Span → Option Span)

@[simp] theorem map_function (async generator : Bool) (name : Option Part) (params : List Part)
    (body : Part) :
    (function async generator name params body).map (renumber number span) =
      function async generator (name.map (·.renumber number span))
        (params.map (·.renumber number span)) (body.renumber number span) := by
  have hn : (name.elim [] plain).map (renumber number span) =
      name.elim [] fun part => plain (part.renumber number span) :=
    map_elim number span name rfl (map_plain number span)
  simp [function, hn, Function.comp_def]

@[simp] theorem map_classOf (name base : Option Part) (body : Part) :
    (classOf name base body).map (renumber number span) =
      classOf (name.map (·.renumber number span)) (base.map (·.renumber number span))
        (body.renumber number span) := by
  simp [classOf]

theorem specifiers_map (kind : Kind) (parts : List Part) :
    specifiers kind (parts.map (·.renumber number span)) =
      (specifiers kind parts).map (·.renumber number span) := by
  simp [specifiers, List.filter_map, Function.comp_def]

@[simp] theorem map_importClause (parts : List Part) :
    (importClause parts).map (renumber number span) =
      importClause (parts.map (·.renumber number span)) := by
  simp [importClause, specifiers_map, Function.comp_def]
  split <;> simp

@[simp] theorem map_interleave (quasis expressions : List Part) :
    (interleave quasis expressions).map (renumber number span) =
      interleave (quasis.map (·.renumber number span))
        (expressions.map (·.renumber number span)) := by
  induction quasis generalizing expressions with
  | nil => rfl
  | cons quasi rest ih => cases expressions <;> simp [interleave, ih]

/-- A template makes the same pieces of the same children with other numbers. -/
theorem map_pieces {kind : Kind} {fields : List (String × Arity)} {slots : List (Slot Part)}
    (hl : kind.fields? = some fields) (hf : Slot.Fits slots (fields.map Prod.snd)) :
    (pieces kind slots).map (renumber number span) =
      pieces kind (slots.map (·.map (·.renumber number span))) := by
  cases kind <;> cases hl <;> (repeat cases ‹Slot.Fits _ _›)
  case literal raw regex bigint => cases regex <;> rfl
  case switchCase test consequent =>
    cases test <;> simp [pieces, renumber, Slot.map, List.map_flatMap, List.flatMap_map]
  case catchClause param body => cases param <;> simp [pieces, given, Slot.map]
  case forStatement init test update body => cases init <;> simp [pieces, Slot.map]
  case property kind method shorthand computed key value =>
    have shared : (pieces (.property .init false true computed) [.one key, .one value]).map
        (renumber number span) = pieces (.property .init false true computed)
          [.one (key.renumber number span), .one (value.renumber number span)] := by
      simp [pieces, renumber, Computed.renumber, Node.named_rebuild, Node.id_rebuild]
    cases kind <;> cases method <;> cases shorthand <;>
      first | exact shared | simp [pieces, Slot.map]
  case updateExpression operator leading argument => cases leading <;> simp [pieces, Slot.map]
  case memberExpression computed optional object property =>
    cases computed <;> simp [pieces, Slot.map]
  case importDeclaration specifiers source =>
    cases specifiers <;> simp [pieces, Slot.map]
  case exportNamedDeclaration declaration specifiers source =>
    cases declaration <;> simp [pieces, Slot.map]
  case exportDefaultDeclaration declaration =>
    simp only [pieces, List.map_cons, List.map_nil, Slot.map, List.map_append, kind_renumber]
    split <;> simp
  -- in all other types the pieces are put together from parts that have lemmas of their own
  all_goals
    simp only [pieces, List.map_cons, List.map_nil, Slot.map, List.map_append, map_lit, map_litIf,
      map_plain, map_atLeast, map_commas, map_sparseCommas, map_lines, map_block, map_braces,
      map_key, map_header, map_given_plain, map_given_atLeast, map_function, map_classOf,
      map_interleave, map_renamed, map_method, kind_renumber, startsWithBrace_renumber,
      startsWithDeclaration_renumber, containsCall_renumber]

end Renumber

end Template

/-- Whether the pieces of a node are those of its template, wherever the node stands. -/
def Kind.isUniform : Kind → Bool
  | variableDeclaration _ | functionExpression _ _ | unknown _ => false
  | _ => true

theorem Kind.exists_fields_of_uniform {kind : Kind} (hu : kind.isUniform) :
    ∃ fields, kind.fields? = some fields := by
  cases kind <;> first | exact ⟨_, rfl⟩ | cases hu

namespace Node

theorem pieces_of_uniform {node : Node Nat} (hu : node.kind.isUniform)
    (slots : List (Slot Part)) (place : Place) :
    node.pieces slots place = Template.pieces node.kind slots := by
  unfold pieces
  split
  case h_1 hk | h_2 hk | h_3 hk =>
    rw [hk] at hu
    cases hu
  case h_4 => rfl

section Renumber

variable (number : Nat → Nat) (span : Option Span → Option Span)

theorem map_pieces {node : Node Nat} (hr : node.Regular) (place : Place) :
    (node.pieces node.parts place).map (Piece.renumber number span) =
      (node.rebuild number span).pieces (node.parts.map (·.map (·.renumber number span)))
        place := by
  cases hu : node.kind.isUniform with
  | true =>
    rw [pieces_of_uniform hu, pieces_of_uniform (by rwa [kind_rebuild]), kind_rebuild]
    obtain ⟨fields, hl⟩ := Kind.exists_fields_of_uniform hu
    exact Template.map_pieces number span hl (fits_parts hr hl)
  | false =>
    unfold Kind.isUniform at hu
    split at hu
    next kind hk =>
      obtain ⟨declarations, shape⟩ : ∃ declarations, node.parts = [.many declarations] := by
        have hf := fits_parts hr (congrArg Kind.fields? hk)
        generalize node.parts = slots at hf
        repeat cases ‹Slot.Fits _ _›
        exact ⟨_, rfl⟩
      rw [shape]
      cases place <;> simp [pieces, hk, kind_rebuild, Slot.map, Template.pieces]
    next async generator hk =>
      obtain ⟨name, params, body, shape⟩ := slots_of_functionExpression hr hk
      rw [parts, shape]
      cases place <;> simp [pieces, hk, kind_rebuild, Slot.map, Template.pieces]
    next typeName hk =>
      have below : (node.rebuild number span).descendants =
          node.descendants.map (rebuild number span) := by
        rw [descendants, preorder_rebuild, ← List.map_tail, ← descendants]
      simp [pieces, hk, kind_rebuild, Template.pieces, below, Piece.renumber, id_rebuild]
    next => cases hu

theorem events_rebuild {node : Node Nat} (hr : ∀ below ∈ node.preorder, below.Regular)
    (place : Place) (level : Nat) :
    (node.rebuild number span).events place level =
      (node.events place level).map (Event.renumber number) := by
  induction node using induction generalizing place level with
  | step node ih =>
    have parts : (node.rebuild number span).parts =
        node.parts.map (·.map (·.renumber number span)) := by
      rw [Node.parts, Node.parts, slots_rebuild, List.map_map, List.map_map]
      refine List.map_congr_left fun slot hm => ?_
      rw [Function.comp_apply, Function.comp_apply, Slot.map_map, Slot.map_map]
      refine Slot.map_congr fun child hc => ?_
      have hc : child ∈ node.children := List.mem_flatMap_of_mem hm hc
      refine congrArg (Computed.mk _) (funext fun place => funext fun level => ?_)
      exact ih child hc (fun below h => hr below (mem_preorder_of_child hc h)) _ _
    rw [events_eq, events_eq, parts, ← map_pieces number span (hr _ node.self_mem_preorder),
      List.flatMap_map]
    simp only [Piece.events_renumber, ← List.map_flatMap]
    rw [framed_eq, framed_eq, kind_rebuild, id_rebuild]
    split <;> simp [Event.renumber]

end Renumber

end Node

end SyntaxMarkup
