import SyntaxMarkup.Layout.Strength

namespace SyntaxMarkup

def isNameStart (c : Char) : Bool :=
  c.isAlpha || c == '_' || c == '$'

def isNameChar (c : Char) : Bool :=
  c.isAlphanum || c == '_' || c == '$'

def reservedWords : List String :=
  ["await", "break", "case", "catch", "class", "const", "continue", "debugger", "default", "delete",
    "do", "else", "enum", "export", "extends", "false", "finally", "for", "function", "if",
    "import", "in", "instanceof", "new", "null", "return", "super", "switch", "this", "throw",
    "true", "try", "typeof", "var", "void", "while", "with", "yield"]

@[ext]
structure VariableName where
  text : String
  start : text.toList.head?.any isNameStart
  chars : text.toList.all isNameChar
  free : text ∉ reservedWords
  deriving DecidableEq

inductive PrefixOperator where
  | unary (operator : UnaryOperator)
  | await
  deriving DecidableEq

namespace PrefixOperator

def word : PrefixOperator → String
  | unary operator => operator.word
  | await => "await"

instance : Vocabulary PrefixOperator where
  all := Vocabulary.all.map unary ++ [await]
  word
  mem_all a := by
    cases a with
    | unary operator => exact List.mem_append_left _ (List.mem_map_of_mem (Vocabulary.mem_all _))
    | await => exact List.mem_append_right _ List.mem_cons_self
  words_nodup := by decide

def isKeyword : PrefixOperator → Bool
  | unary operator => operator.isKeyword
  | await => true

end PrefixOperator

/-- The operators between two operands; `question` has a third one after it. -/
inductive InfixOperator where
  | comma
  | binary (operator : BinaryOperator)
  | logical (operator : LogicalOperator)
  | assignment (operator : AssignmentOperator)
  | question
  deriving DecidableEq

namespace InfixOperator

def word : InfixOperator → String
  | comma => ","
  | binary operator => operator.word
  | logical operator => operator.word
  | assignment operator => operator.word
  | question => "?"

instance : Vocabulary InfixOperator where
  all := comma :: question :: (Vocabulary.all.map binary ++ Vocabulary.all.map logical ++
    Vocabulary.all.map assignment)
  word
  mem_all a := by cases a <;> simp [Vocabulary.mem_all]
  words_nodup := by decide

def text : InfixOperator → List Char
  | comma => ", ".toList
  | operator => ' ' :: operator.word.toList ++ [' ']

def level : InfixOperator → Strength
  | comma => .sequence
  | binary operator => operator.strength
  | logical operator => operator.strength
  | assignment _ => .assignment
  | question => .conditional

/-- How tightly its left operand binds at least. -/
def least : InfixOperator → Strength
  | comma => .sequence
  | binary operator => if operator = .power then .update else operator.strength
  | logical operator => operator.strength
  | assignment _ => .primary
  | question => .conditional + 1

/-- How tightly its last operand binds at least. -/
def reach : InfixOperator → Strength
  | comma => .assignment
  | binary operator => if operator = .power then operator.strength else operator.strength + 1
  | logical operator => operator.strength + 1
  | assignment _ => .assignment
  | question => .assignment

end InfixOperator

/-- An expression with its parentheses. -/
inductive Phrase where
  | identifier (name : VariableName)
  | paren (inner : Phrase)
  | prefixed (operator : PrefixOperator) (argument : Phrase)
  | update (operator : UpdateOperator) (leading : Bool) (name : VariableName)
  | joined (left : Phrase) (operator : InfixOperator) (right : Phrase)
  | conditional (test consequent alternate : Phrase)

namespace Phrase

def strength : Phrase → Strength
  | identifier _ | paren _ => .primary
  | prefixed _ _ => .unary
  | update _ _ _ => .update
  | joined _ operator _ => operator.level
  | conditional _ _ _ => .conditional

def runsInto (operator : PrefixOperator) : Phrase → Bool
  | prefixed inner _ =>
    (operator == .unary .minus && inner == .unary .minus) ||
      (operator == .unary .plus && inner == .unary .plus)
  | update inner true _ =>
    (operator == .unary .minus && inner == .decrement) ||
      (operator == .unary .plus && inner == .increment)
  | _ => false

def gap (operator : PrefixOperator) (argument : Phrase) : List Char :=
  if operator.isKeyword || argument.runsInto operator then [' '] else []

def text : Phrase → List Char
  | identifier name => name.text.toList
  | paren inner => '(' :: inner.text ++ [')']
  | prefixed operator argument => operator.word.toList ++ argument.gap operator ++ argument.text
  | update operator true name => operator.word.toList ++ name.text.toList
  | update operator false name => name.text.toList ++ operator.word.toList
  | joined left operator right => left.text ++ operator.text ++ right.text
  | conditional test consequent alternate =>
    test.text ++ InfixOperator.question.text ++ consequent.text ++ " : ".toList ++ alternate.text

/-- Operands bind as tightly as their operators ask, or stand in parentheses. -/
def Valid : Phrase → Prop
  | identifier _ => True
  | paren inner => inner.Valid
  | prefixed _ argument => argument.Valid ∧ .unary ≤ argument.strength
  | update _ _ _ => True
  | joined left operator right =>
    left.Valid ∧ right.Valid ∧ operator ≠ .question ∧ operator.least ≤ left.strength ∧
      operator.reach ≤ right.strength
  | conditional test consequent alternate =>
    test.Valid ∧ consequent.Valid ∧ alternate.Valid ∧
      InfixOperator.question.least ≤ test.strength ∧ .assignment ≤ consequent.strength ∧
      InfixOperator.question.reach ≤ alternate.strength

/-- An operator with the operands to the right of it. -/
inductive Step where
  | joined (operator : InfixOperator) (right : Phrase)
  | conditional (consequent alternate : Phrase)

namespace Step

def operator : Step → InfixOperator
  | joined operator _ => operator
  | conditional _ _ => .question

def operands : Step → List Char
  | joined _ right => right.text
  | conditional consequent alternate => consequent.text ++ " : ".toList ++ alternate.text

def text (step : Step) : List Char :=
  step.operator.text ++ step.operands

def apply (left : Phrase) : Step → Phrase
  | joined operator right => .joined left operator right
  | conditional consequent alternate => .conditional left consequent alternate

def Valid : Step → Prop
  | joined operator right => right.Valid ∧ operator ≠ .question ∧ operator.reach ≤ right.strength
  | conditional consequent alternate =>
    consequent.Valid ∧ alternate.Valid ∧ .assignment ≤ consequent.strength ∧
      InfixOperator.question.reach ≤ alternate.strength

end Step

def head : Phrase → Phrase
  | joined left _ _ => left.head
  | conditional test _ _ => test.head
  | operand => operand

def steps : Phrase → List Step
  | joined left operator right => left.steps ++ [.joined operator right]
  | conditional test consequent alternate => test.steps ++ [.conditional consequent alternate]
  | _ => []

theorem text_eq (phrase : Phrase) :
    phrase.text = phrase.head.text ++ phrase.steps.flatMap Step.text := by
  induction phrase with
  | joined left operator right ih =>
    simp [text, head, steps, ih, Step.text, Step.operator, Step.operands]
  | conditional test consequent alternate ih =>
    simp [text, head, steps, ih, Step.text, Step.operator, Step.operands]
  | identifier | paren | prefixed | update => simp [head, steps]

theorem foldl_apply (phrase : Phrase) : phrase.steps.foldl Step.apply phrase.head = phrase := by
  induction phrase with
  | joined left operator right ih => rw [steps, head, List.foldl_append, ih]; rfl
  | conditional test consequent alternate ih => rw [steps, head, List.foldl_append, ih]; rfl
  | identifier | paren | prefixed | update => rfl

def IsOperand (phrase : Phrase) : Prop :=
  phrase.steps = []

theorem isOperand_head (phrase : Phrase) : phrase.head.IsOperand := by
  induction phrase with
  | joined left operator right ih => exact ih
  | conditional test consequent alternate ih => exact ih
  | identifier | paren | prefixed | update => rfl

theorem Valid.head {phrase : Phrase} (valid : phrase.Valid) : phrase.head.Valid := by
  induction phrase with
  | joined left operator right ih => exact ih valid.1
  | conditional test consequent alternate ih => exact ih valid.1
  | identifier | paren | prefixed | update => exact valid

theorem Valid.steps {phrase : Phrase} (valid : phrase.Valid) :
    ∀ step ∈ phrase.steps, step.Valid := by
  induction phrase with
  | joined left operator right ih =>
    obtain ⟨leftValid, rightValid, other, -, reach⟩ := valid
    refine List.forall_mem_append.mpr ⟨ih leftValid, ?_⟩
    exact List.forall_mem_singleton.mpr ⟨rightValid, other, reach⟩
  | conditional test consequent alternate ih =>
    obtain ⟨testValid, rest⟩ := valid
    refine List.forall_mem_append.mpr ⟨ih testValid, ?_⟩
    exact List.forall_mem_singleton.mpr ⟨rest.1, rest.2.1, rest.2.2.2⟩
  | identifier | paren | prefixed | update => exact nofun

end Phrase

namespace InfixOperator

/-- An operator binds no tighter than its left operand has to. -/
theorem level_le_least (operator : InfixOperator) : operator.level ≤ operator.least := by
  cases operator with
  | binary operator => cases operator <;> decide
  | logical operator => cases operator <;> decide
  | assignment operator => exact (by decide : Strength.assignment ≤ .primary)
  | comma | question => decide

theorem sequence_le_level (operator : InfixOperator) : .sequence ≤ operator.level := by
  cases operator with
  | binary operator => cases operator <;> decide
  | logical operator => cases operator <;> decide
  | assignment operator => exact (by decide : Strength.sequence ≤ .assignment)
  | comma | question => decide

theorem level_lt_unary (operator : InfixOperator) : operator.level < .unary := by
  cases operator with
  | binary operator => cases operator <;> decide
  | logical operator => cases operator <;> decide
  | assignment operator => exact (by decide : Strength.assignment < .unary)
  | comma | question => decide

/-- Only a comma takes a conditional or an assignment as its left operand. -/
theorem eq_comma_of_least_le {operator : InfixOperator} (h : operator.least ≤ .conditional) :
    operator = .comma := by
  cases operator with
  | comma => rfl
  | binary operator => cases operator <;> exact absurd h (by decide)
  | logical operator => cases operator <;> exact absurd h (by decide)
  | assignment operator => exact absurd h (by decide : ¬Strength.primary ≤ .conditional)
  | question => exact absurd h (by decide)

/-- A power is no left operand of another one. -/
theorem level_lt_power {operator : InfixOperator}
    (h : operator.least ≤ BinaryOperator.power.strength) :
    operator.level < BinaryOperator.power.strength := by
  cases operator with
  | binary operator => cases operator <;> first | decide | exact absurd h (by decide)
  | logical operator => cases operator <;> decide
  | assignment operator => exact (by decide : Strength.assignment < BinaryOperator.power.strength)
  | comma | question => decide

/-- What takes the result of an operator as its left operand ends the last operand of that. -/
theorem level_lt_reach {operator next : InfixOperator} (h : next.least ≤ operator.level) :
    next.level < operator.reach := by
  have weaker : next.level < operator.level + 1 :=
    Nat.lt_succ_of_le (Nat.le_trans next.level_le_least h)
  cases operator with
  | comma => exact weaker
  | binary operator =>
    by_cases power : operator = .power
    · rw [reach, if_pos power, power]
      exact level_lt_power (power ▸ h)
    · rwa [reach, if_neg power]
  | logical operator => exact weaker
  | assignment operator =>
    -- only a comma follows
    rw [eq_comma_of_least_le (Nat.le_trans h (by decide : Strength.assignment ≤ .conditional))]
    exact (by decide : Strength.sequence < .assignment)
  | question =>
    rw [eq_comma_of_least_le h]
    exact (by decide : Strength.sequence < .assignment)

theorem reach_ne_conditional (operator : InfixOperator) : operator.reach ≠ .conditional := by
  cases operator with
  | binary operator => cases operator <;> decide
  | logical operator => cases operator <;> decide
  | assignment operator => exact (by decide : Strength.assignment ≠ .conditional)
  | comma | question => decide

/-- The last operand binds as tightly as the whole, a conditional aside. -/
theorem le_reach {operator : InfixOperator} {least : Strength} (h : least ≤ operator.level)
    (other : least ≠ .conditional) : least ≤ operator.reach := by
  cases operator with
  | comma => exact Nat.le_succ_of_le h
  | binary operator =>
    rw [reach]
    split
    · exact h
    · exact Nat.le_succ_of_le h
  | logical operator => exact Nat.le_succ_of_le h
  | assignment operator => exact h
  | question => exact Nat.le_of_lt_succ (Nat.lt_of_le_of_ne h other)

end InfixOperator

theorem Phrase.sequence_le_strength (phrase : Phrase) : .sequence ≤ phrase.strength := by
  cases phrase with
  | joined left operator right => exact operator.sequence_le_level
  | identifier | paren => exact (by decide : Strength.sequence ≤ .primary)
  | prefixed => exact (by decide : Strength.sequence ≤ .unary)
  | update => exact (by decide : Strength.sequence ≤ .update)
  | conditional => exact (by decide : Strength.sequence ≤ .conditional)

end SyntaxMarkup
