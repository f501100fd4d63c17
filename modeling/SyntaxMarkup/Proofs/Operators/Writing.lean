import SyntaxMarkup.Proofs.Layout.Statement
import SyntaxMarkup.Proofs.Operators.Expression

namespace SyntaxMarkup

namespace Expression

open Phrase

theorem text_seat (least : Strength) (expression : Expression) :
    (seat least expression.phrase).text =
      if expression.kind.strength < least then '(' :: expression.phrase.text ++ [')']
      else expression.phrase.text := by
  unfold seat
  rw [strength_phrase]
  split <;> rfl

theorem runsInto_seat (operator : UnaryOperator) (argument : Expression) :
    (seat .unary argument.phrase).runsInto (.unary operator) =
      argument.kind.runsInto operator := by
  cases argument with
  | unary inner argument => cases operator <;> cases inner <;> rfl
  | update inner leading name => cases operator <;> cases inner <;> cases leading <;> rfl
  | await argument => cases operator <;> rfl
  | binary inner left right => cases inner <;> rfl
  | logical inner left right => cases inner <;> rfl
  -- the chain of a sequence does not compute, its strength is known all the same
  | sequence first second rest =>
    unfold seat
    rw [strength_phrase]
    rfl
  | identifier | conditional | assignment => rfl

section Characters

variable {indent : String}

theorem kind_eq {expression : Expression} {node : Node Nat} (h : node.bare = expression.node) :
    node.kind = expression.kind := by
  rw [← node.kind_bare, h, kind_node]

/-- Whether the nodes of an expression are written as its phrase, in every place. -/
def Written (indent : String) (expression : Expression) : Prop :=
  ∀ node : Node Nat, node.bare = expression.node → ∀ place level,
    (node.events place level).flatMap (Event.chars indent) = expression.phrase.text

theorem Written.chars_operand {operand : Expression} (hw : operand.Written indent)
    {child : Node Nat} (h : child.bare = operand.node) (least : Strength) (level : Nat) :
    Piece.chars indent level (Piece.atLeast least child.part) =
      (seat least operand.phrase).text := by
  rw [Node.WrittenAs.chars_atLeast hw h, kind_node, text_seat]

theorem isUniform_node (expression : Expression) : expression.node.kind.isUniform := by
  rw [kind_node]
  cases expression <;> rfl

theorem written_identifier (name : VariableName) : (identifier name).Written indent := by
  intro node h place level
  have hk : node.kind = .identifier name.text := kind_eq h
  rw [Node.chars_events]
  simp [Node.pieces, hk, Template.pieces, phrase, Phrase.text]

/-- If each child of an expression has a slot of its own, then its template is what counts. -/
theorem written_of_operands {expression : Expression} (operands : List Expression)
    (slots : expression.node.slots = (operands.map Expression.node).map .one)
    (text : ∀ level (children : List (Node Nat)),
      List.Forall₂ (fun child operand => child.bare = operand.node) children operands →
        Piece.chars indent level
            (Template.pieces expression.kind (children.map fun child => .one child.part)) =
          expression.phrase.text) : expression.Written indent := by
  refine Node.writtenAs_of_operands expression.isUniform_node _ slots fun level children each => ?_
  rw [kind_node]
  exact text level children (List.forall₂_map_right_iff.mp each)

theorem written_unary {argument : Expression} (hw : argument.Written indent)
    (operator : UnaryOperator) : (unary operator argument).Written indent := by
  refine written_of_operands [argument] rfl fun level children each => ?_
  obtain - | @⟨child, _, _, _, argumentIs, ⟨⟩⟩ := each
  have runs : (seat .unary argument.phrase).runsInto (.unary operator) =
      child.kind.runsInto operator := by
    rw [runsInto_seat, kind_eq argumentIs]
  change Piece.chars indent level (Piece.lit operator.word ++
    Piece.litIf (operator.isKeyword || child.kind.runsInto operator) " " ++
    Piece.atLeast .unary child.part) = _
  rw [Piece.chars_append, Piece.chars_append, Piece.chars_lit, Piece.chars_litIf,
    hw.chars_operand argumentIs, ← runs]
  rfl

theorem written_update (operator : UpdateOperator) (leading : Bool) (name : VariableName) :
    (update operator leading name).Written indent := by
  refine written_of_operands [identifier name] rfl fun level children each => ?_
  obtain - | @⟨child, _, _, _, nameIs, ⟨⟩⟩ := each
  have operand : Piece.chars indent level (Piece.atLeast .update child.part) = name.text.toList :=
    (written_identifier name).chars_operand nameIs .update level
  cases leading with
  | true =>
    change Piece.chars indent level
      (Piece.lit operator.word ++ Piece.atLeast .update child.part) = _
    rw [Piece.chars_append, Piece.chars_lit, operand]
    rfl
  | false =>
    change Piece.chars indent level
      (Piece.atLeast .update child.part ++ Piece.lit operator.word) = _
    rw [Piece.chars_append, Piece.chars_lit, operand]
    rfl

theorem written_await {argument : Expression} (hw : argument.Written indent) :
    argument.await.Written indent := by
  refine written_of_operands [argument] rfl fun level children each => ?_
  obtain - | @⟨child, _, _, _, argumentIs, ⟨⟩⟩ := each
  change Piece.chars indent level (Piece.lit "await " ++ Piece.atLeast .unary child.part) = _
  rw [Piece.chars_append, Piece.chars_lit, hw.chars_operand argumentIs]
  rfl

theorem written_binary {left right : Expression} (leftWritten : left.Written indent)
    (rightWritten : right.Written indent) (operator : BinaryOperator) :
    (binary operator left right).Written indent := by
  refine written_of_operands [left, right] rfl fun level children each => ?_
  obtain - | ⟨leftIs, - | ⟨rightIs, ⟨⟩⟩⟩ := each
  simp only [kind, Template.pieces, List.map_cons, List.map_nil, Piece.chars_append,
    Piece.chars_lit, leftWritten.chars_operand leftIs, rightWritten.chars_operand rightIs]
  simp only [phrase, Phrase.text, InfixOperator.text, InfixOperator.least, InfixOperator.reach]
  split <;> simp [InfixOperator.word]

theorem written_logical {left right : Expression} (leftWritten : left.Written indent)
    (rightWritten : right.Written indent) (operator : LogicalOperator) :
    (logical operator left right).Written indent := by
  refine written_of_operands [left, right] rfl fun level children each => ?_
  obtain - | @⟨first, _, _, _, leftIs, - | @⟨second, _, _, _, rightIs, ⟨⟩⟩⟩ := each
  have least {child : Node Nat} {operand : Expression} (h : child.bare = operand.node)
      (usual : Strength) :
      (if child.part.node.kind.clashesWith operator then Strength.parenthesized else usual) =
        leastFor operator operand usual := by
    rw [Node.node_part, kind_eq h, leastFor]
  change Piece.chars indent level (Piece.atLeast _ first.part ++ Piece.lit " " ++
    Piece.lit operator.word ++ Piece.lit " " ++ Piece.atLeast _ second.part) = _
  simp only [Piece.chars_append, Piece.chars_lit, leftWritten.chars_operand leftIs,
    rightWritten.chars_operand rightIs]
  rw [least leftIs, least rightIs]
  simp [phrase, Phrase.text, InfixOperator.text, InfixOperator.word]

theorem written_conditional {test consequent alternate : Expression}
    (testWritten : test.Written indent) (consequentWritten : consequent.Written indent)
    (alternateWritten : alternate.Written indent) :
    (conditional test consequent alternate).Written indent := by
  refine written_of_operands [test, consequent, alternate] rfl fun level children each => ?_
  obtain - | ⟨testIs, - | ⟨consequentIs, - | ⟨alternateIs, ⟨⟩⟩⟩⟩ := each
  simp only [kind, Template.pieces, List.map_cons, List.map_nil, Piece.chars_append,
    Piece.chars_lit, testWritten.chars_operand testIs,
    consequentWritten.chars_operand consequentIs, alternateWritten.chars_operand alternateIs]
  rfl

theorem written_assignment {right : Expression} (hw : right.Written indent)
    (operator : AssignmentOperator) (name : VariableName) :
    (assignment operator name right).Written indent := by
  refine written_of_operands [identifier name, right] rfl fun level children each => ?_
  obtain - | @⟨first, _, _, _, nameIs, - | @⟨second, _, _, _, rightIs, ⟨⟩⟩⟩ := each
  have left : Piece.chars indent level (Piece.plain first.part) = name.text.toList :=
    (Piece.chars_plain _).trans (written_identifier name first nameIs .plain level)
  change Piece.chars indent level (Piece.plain first.part ++ Piece.lit " " ++
    Piece.lit operator.word ++ Piece.lit " " ++ Piece.atLeast .assignment second.part) = _
  simp only [Piece.chars_append, Piece.chars_lit, hw.chars_operand rightIs, left]
  simp [phrase, Phrase.text, InfixOperator.text, InfixOperator.word]

theorem written_sequence {first second : Expression} {rest : List Expression}
    (each : ∀ item ∈ first :: second :: rest, item.Written indent) :
    (sequence first second rest).Written indent := by
  refine Node.writtenAs_of_template (isUniform_node _) fun node h level => ?_
  have slots : node.slots.map (·.map Node.bare) =
      [.many (first.node :: second.node :: rest.map Expression.node)] := by
    rw [← Node.slots_bare, h, ← nodes_eq_map]
    rfl
  obtain ⟨children, shape, same⟩ := Slot.exists_of_map_eq_singleton_many slots
  rw [Node.parts, shape]
  change Piece.chars indent level (Piece.commas (children.map Node.part)) = _
  have items : Piece.chars indent level (Piece.commas (children.map Node.part)) =
      joined ((first :: second :: rest).map fun item => (seat .assignment item.phrase).text) :=
    Node.chars_arguments same (fun item hm child hi =>
      (each item hm).chars_operand hi .assignment) level
  rw [items, phrase, text_chain, phrases_eq_map, List.flatMap_map]
  simp [joined, Phrase.text, InfixOperator.text, List.flatMap_map]

theorem written (expression : Expression) : expression.Written indent := by
  induction expression with
  | identifier name => exact written_identifier name
  | unary operator argument ih => exact written_unary ih operator
  | update operator leading name => exact written_update operator leading name
  | await argument ih => exact written_await ih
  | binary operator left right ihLeft ihRight => exact written_binary ihLeft ihRight operator
  | logical operator left right ihLeft ihRight => exact written_logical ihLeft ihRight operator
  | conditional test consequent alternate ihTest ihConsequent ihAlternate =>
    exact written_conditional ihTest ihConsequent ihAlternate
  | assignment operator name right ih => exact written_assignment ih operator name
  | sequence first second rest ihFirst ihSecond ihRest =>
    exact written_sequence (List.forall_mem_cons.mpr ⟨ihFirst, List.forall_mem_cons.mpr ⟨ihSecond,
      ihRest⟩⟩)

end Characters

end Expression

end SyntaxMarkup
