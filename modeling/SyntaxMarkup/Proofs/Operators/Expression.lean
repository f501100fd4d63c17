import SyntaxMarkup.Proofs.Operators.Phrase

namespace SyntaxMarkup

inductive Expression where
  | identifier (name : VariableName)
  | unary (operator : UnaryOperator) (argument : Expression)
  | update (operator : UpdateOperator) (leading : Bool) (name : VariableName)
  | await (argument : Expression)
  | binary (operator : BinaryOperator) (left right : Expression)
  | logical (operator : LogicalOperator) (left right : Expression)
  | conditional (test consequent alternate : Expression)
  | assignment (operator : AssignmentOperator) (name : VariableName) (right : Expression)
  | sequence (first second : Expression) (rest : List Expression)

def VariableName.node (name : VariableName) : Node Unit :=
  .mk () (.identifier name.text) none []

namespace Expression

@[induction_eliminator]
theorem induction {motive : Expression → Prop}
    (identifier : ∀ name, motive (.identifier name))
    (unary : ∀ operator argument, motive argument → motive (.unary operator argument))
    (update : ∀ operator leading name, motive (.update operator leading name))
    (await : ∀ argument, motive argument → motive (.await argument))
    (binary : ∀ operator left right, motive left → motive right →
      motive (.binary operator left right))
    (logical : ∀ operator left right, motive left → motive right →
      motive (.logical operator left right))
    (conditional : ∀ test consequent alternate, motive test → motive consequent →
      motive alternate → motive (.conditional test consequent alternate))
    (assignment : ∀ operator name right, motive right → motive (.assignment operator name right))
    (sequence : ∀ first second rest, motive first → motive second →
      (∀ item ∈ rest, motive item) → motive (.sequence first second rest))
    (expression : Expression) : motive expression :=
  @Expression.rec motive (fun items => ∀ item ∈ items, motive item) identifier unary update await
    binary logical conditional assignment sequence nofun
    (fun _ _ first others => List.forall_mem_cons.mpr ⟨first, others⟩) expression

def kind : Expression → Kind
  | identifier name => .identifier name.text
  | unary operator _ => .unaryExpression operator
  | update operator leading _ => .updateExpression operator leading
  | await _ => .awaitExpression
  | binary operator _ _ => .binaryExpression operator
  | logical operator _ _ => .logicalExpression operator
  | conditional _ _ _ => .conditionalExpression
  | assignment operator _ _ => .assignmentExpression operator
  | sequence _ _ _ => .sequenceExpression

mutual

def node : Expression → Node Unit
  | identifier name => name.node
  | unary operator argument =>
    .mk () (.unaryExpression operator) none [⟨"argument", .one argument.node⟩]
  | update operator leading name =>
    .mk () (.updateExpression operator leading) none [⟨"argument", .one name.node⟩]
  | await argument => .mk () .awaitExpression none [⟨"argument", .one argument.node⟩]
  | binary operator left right =>
    .mk () (.binaryExpression operator) none [⟨"left", .one left.node⟩, ⟨"right", .one right.node⟩]
  | logical operator left right =>
    .mk () (.logicalExpression operator) none [⟨"left", .one left.node⟩, ⟨"right", .one right.node⟩]
  | conditional test consequent alternate =>
    .mk () .conditionalExpression none
      [⟨"test", .one test.node⟩, ⟨"consequent", .one consequent.node⟩,
        ⟨"alternate", .one alternate.node⟩]
  | assignment operator name right =>
    .mk () (.assignmentExpression operator) none
      [⟨"left", .one name.node⟩, ⟨"right", .one right.node⟩]
  | sequence first second rest =>
    .mk () .sequenceExpression none
      [⟨"expressions", .many (first.node :: second.node :: nodes rest)⟩]

def nodes : List Expression → List (Node Unit)
  | [] => []
  | expression :: rest => expression.node :: nodes rest

end

theorem kind_node (expression : Expression) : expression.node.kind = expression.kind := by
  cases expression <;> rfl

theorem nodes_eq_map (expressions : List Expression) :
    nodes expressions = expressions.map node := by
  induction expressions with
  | nil => rfl
  | cons expression rest ih => rw [nodes, ih, List.map_cons]

end Expression

namespace Phrase

/-- A phrase in a place that asks for some strength. -/
def seat (least : Strength) (phrase : Phrase) : Phrase :=
  if phrase.strength < least then .paren phrase else phrase

theorem le_strength_seat_of_le {usual least : Strength} (h : usual ≤ .primary)
    (stricter : usual ≤ least) (phrase : Phrase) : usual ≤ (seat least phrase).strength := by
  unfold seat
  split
  next => exact h
  next hs => exact Nat.le_trans stricter (Nat.le_of_not_lt hs)

theorem le_strength_seat {least : Strength} (h : least ≤ .primary) (phrase : Phrase) :
    least ≤ (seat least phrase).strength :=
  le_strength_seat_of_le h (Nat.le_refl _) phrase

theorem Valid.seat {phrase : Phrase} (valid : phrase.Valid) (least : Strength) :
    (seat least phrase).Valid := by
  unfold Phrase.seat
  split
  · exact valid
  · exact valid

def chain (first : Phrase) (rest : List Phrase) : Phrase :=
  rest.foldl (fun left right => .joined left .comma right) first

theorem text_chain (first : Phrase) (rest : List Phrase) :
    (chain first rest).text =
      first.text ++ rest.flatMap fun item => InfixOperator.comma.text ++ item.text := by
  induction rest generalizing first with
  | nil => exact (List.append_nil _).symm
  | cons item rest ih =>
    have step := ih (.joined first .comma item)
    rw [List.flatMap_cons, ← List.append_assoc, ← List.append_assoc]
    exact step

end Phrase

namespace Expression

open Phrase

/-- The strength that a place for an operand of a logical operator asks for. -/
def leastFor (operator : LogicalOperator) (operand : Expression) (usual : Strength) : Strength :=
  if operand.kind.clashesWith operator then .parenthesized else usual

theorem le_leastFor {usual : Strength} (h : usual ≤ .parenthesized) (operator : LogicalOperator)
    (operand : Expression) : usual ≤ leastFor operator operand usual := by
  unfold leastFor
  split
  · exact h
  · exact Nat.le_refl _

mutual

def phrase : Expression → Phrase
  | identifier name => .identifier name
  | unary operator argument => .prefixed (.unary operator) (seat .unary argument.phrase)
  | update operator leading name => .update operator leading name
  | await argument => .prefixed .await (seat .unary argument.phrase)
  | binary operator left right =>
    .joined (seat (InfixOperator.binary operator).least left.phrase) (.binary operator)
      (seat (InfixOperator.binary operator).reach right.phrase)
  | logical operator left right =>
    .joined (seat (leastFor operator left operator.strength) left.phrase) (.logical operator)
      (seat (leastFor operator right (operator.strength + 1)) right.phrase)
  | conditional test consequent alternate =>
    .conditional (seat (Strength.conditional + 1) test.phrase)
      (seat .assignment consequent.phrase) (seat .assignment alternate.phrase)
  | assignment operator name right =>
    .joined (.identifier name) (.assignment operator) (seat .assignment right.phrase)
  | sequence first second rest =>
    chain (.joined (seat .assignment first.phrase) .comma (seat .assignment second.phrase))
      (phrases rest)

def phrases : List Expression → List Phrase
  | [] => []
  | expression :: rest => seat .assignment expression.phrase :: phrases rest

end

theorem phrases_eq_map (expressions : List Expression) :
    phrases expressions = expressions.map fun item => seat .assignment item.phrase := by
  induction expressions with
  | nil => rfl
  | cons expression rest ih => rw [phrases, ih, List.map_cons]

theorem strength_chain (left first : Phrase) (rest : List Phrase) :
    (chain (.joined left .comma first) rest).strength = .sequence := by
  induction rest generalizing left first with
  | nil => rfl
  | cons second rest ih => exact ih _ second

theorem valid_chain {left first : Phrase} {rest : List Phrase}
    (valid : (Phrase.joined left .comma first).Valid)
    (others : ∀ item ∈ rest, item.Valid ∧ .assignment ≤ item.strength) :
    (chain (.joined left .comma first) rest).Valid := by
  induction rest generalizing left first with
  | nil => exact valid
  | cons second rest ih =>
    obtain ⟨here, later⟩ := List.forall_mem_cons.mp others
    exact ih ⟨valid, here.1, by decide, Nat.le_refl _, here.2⟩ later

theorem strength_phrase (expression : Expression) :
    expression.phrase.strength = expression.kind.strength := by
  cases expression with
  | sequence => exact strength_chain _ _ _
  | identifier | unary | update | await | binary | logical | conditional | assignment => rfl

/-- What an expression is written as needs no more parentheses. -/
theorem valid_phrase (expression : Expression) : expression.phrase.Valid := by
  induction expression with
  | identifier | update => trivial
  | unary operator argument ih => exact ⟨ih.seat _, le_strength_seat (by decide) _⟩
  | await argument ih => exact ⟨ih.seat _, le_strength_seat (by decide) _⟩
  | binary operator left right ihLeft ihRight =>
    refine ⟨ihLeft.seat _, ihRight.seat _, nofun, le_strength_seat ?_ _, le_strength_seat ?_ _⟩
    · cases operator <;> decide
    · cases operator <;> decide
  | logical operator left right ihLeft ihRight =>
    refine ⟨ihLeft.seat _, ihRight.seat _, nofun, le_strength_seat_of_le ?_ (le_leastFor ?_ _ _) _,
      le_strength_seat_of_le ?_ (le_leastFor ?_ _ _) _⟩ <;> cases operator <;> decide
  | conditional test consequent alternate ihTest ihConsequent ihAlternate =>
    exact ⟨ihTest.seat _, ihConsequent.seat _, ihAlternate.seat _, le_strength_seat (by decide) _,
      le_strength_seat (by decide) _, le_strength_seat (by decide) _⟩
  | assignment operator name right ih =>
    exact ⟨trivial, ih.seat _, nofun, Nat.le_refl _,
      le_strength_seat (by decide : Strength.assignment ≤ .primary) _⟩
  | sequence first second rest ihFirst ihSecond ihRest =>
    refine valid_chain ⟨ihFirst.seat _, ihSecond.seat _, nofun, sequence_le_strength _,
      le_strength_seat (by decide) _⟩ ?_
    rw [phrases_eq_map, List.forall_mem_map]
    exact fun item hm => ⟨(ihRest item hm).seat _, le_strength_seat (by decide) _⟩

end Expression

namespace Phrase

def continueSequence (left : Phrase) (first second : Expression) : Expression :=
  match left, first with
  | joined _ .comma _, .sequence first between rest => .sequence first between (rest ++ [second])
  | _, _ => .sequence first second []

/-- The expression that a phrase stands for; what is no phrase of an expression stands for one of
its parts. -/
def expression : Phrase → Expression
  | identifier name => .identifier name
  | paren inner => inner.expression
  | prefixed (.unary operator) argument => .unary operator argument.expression
  | prefixed .await argument => .await argument.expression
  | update operator leading name => .update operator leading name
  | joined (identifier name) (.assignment operator) right =>
    .assignment operator name right.expression
  | joined left .comma right => left.continueSequence left.expression right.expression
  | joined left (.binary operator) right =>
    .binary operator left.expression right.expression
  | joined left (.logical operator) right =>
    .logical operator left.expression right.expression
  | joined left _ _ => left.expression
  | conditional test consequent alternate =>
    .conditional test.expression consequent.expression alternate.expression

theorem expression_seat (least : Strength) (phrase : Phrase) :
    (seat least phrase).expression = phrase.expression := by
  unfold seat
  split <;> rfl

theorem expression_chain {left right : Phrase} {first second : Expression}
    {between : List Expression}
    (h : (joined left .comma right).expression = .sequence first second between)
    (items : List Phrase) :
    (chain (joined left .comma right) items).expression =
      .sequence first second (between ++ items.map expression) := by
  induction items generalizing left right between with
  | nil => simpa [chain] using h
  | cons item rest ih =>
    have next : (joined (joined left .comma right) .comma item).expression =
        .sequence first second (between ++ [item.expression]) := by
      rw [expression, h]
      rfl
    have all := ih next
    rwa [List.append_assoc, List.singleton_append, ← List.map_cons] at all

end Phrase

/-- An expression is what its phrase stands for. -/
theorem Expression.expression_phrase (expression : Expression) :
    expression.phrase.expression = expression := by
  induction expression with
  | identifier | update => rfl
  | unary operator argument ih => rw [phrase, Phrase.expression, Phrase.expression_seat, ih]
  | await argument ih => rw [phrase, Phrase.expression, Phrase.expression_seat, ih]
  | binary operator left right ihLeft ihRight =>
    simp [phrase, Phrase.expression, Phrase.expression_seat, ihLeft, ihRight]
  | logical operator left right ihLeft ihRight =>
    simp [phrase, Phrase.expression, Phrase.expression_seat, ihLeft, ihRight]
  | conditional test consequent alternate ihTest ihConsequent ihAlternate =>
    simp [phrase, Phrase.expression, Phrase.expression_seat, ihTest, ihConsequent, ihAlternate]
  | assignment operator name right ih =>
    rw [phrase, Phrase.expression, Phrase.expression_seat, ih]
  | sequence first second rest ihFirst ihSecond ihRest =>
    have start : (Phrase.joined (.seat .assignment first.phrase) .comma
        (.seat .assignment second.phrase)).expression = .sequence first second [] := by
      rw [Phrase.expression, Phrase.expression_seat, Phrase.expression_seat, ihFirst, ihSecond]
      -- a sequence as the first item stands in parentheses, so it does not go on here
      have hs := Phrase.le_strength_seat (by decide : Strength.assignment ≤ .primary) first.phrase
      unfold Phrase.continueSequence
      split
      next eq =>
        rw [eq] at hs
        exact absurd hs (by decide : ¬Strength.assignment ≤ .sequence)
      next => rfl
    rw [phrase, Phrase.expression_chain start, phrases_eq_map, List.map_map]
    simp [Function.comp_def, Phrase.expression_seat, List.map_congr_left ihRest]

end SyntaxMarkup
