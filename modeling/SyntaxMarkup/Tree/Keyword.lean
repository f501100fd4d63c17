import SyntaxMarkup.Text.Vocabulary

namespace SyntaxMarkup

inductive VariableKind where
  | var
  | letting
  | const
  deriving DecidableEq, Repr

inductive PropertyKind where
  | init
  | getter
  | setter
  deriving DecidableEq, Repr

inductive MethodKind where
  | constructor
  | method
  | getter
  | setter
  deriving DecidableEq, Repr

inductive UnaryOperator where
  | minus
  | plus
  | not
  | bitNot
  | typeof
  | void
  | delete
  deriving DecidableEq, Repr

inductive UpdateOperator where
  | increment
  | decrement
  deriving DecidableEq, Repr

inductive BinaryOperator where
  | equal
  | notEqual
  | identical
  | notIdentical
  | less
  | lessOrEqual
  | greater
  | greaterOrEqual
  | shiftLeft
  | shiftRight
  | shiftRightUnsigned
  | add
  | subtract
  | multiply
  | divide
  | remainder
  | power
  | bitOr
  | bitXor
  | bitAnd
  | member
  | instanceOf
  deriving DecidableEq, Repr

inductive LogicalOperator where
  | or
  | and
  | coalesce
  deriving DecidableEq, Repr

inductive AssignmentOperator where
  | assign
  | add
  | subtract
  | multiply
  | divide
  | remainder
  | power
  | shiftLeft
  | shiftRight
  | shiftRightUnsigned
  | bitOr
  | bitXor
  | bitAnd
  | or
  | and
  | coalesce
  deriving DecidableEq, Repr

namespace VariableKind

def word : VariableKind → String
  | var => "var"
  | letting => "let"
  | const => "const"

instance : Vocabulary VariableKind where
  all := [var, letting, const]
  word
  mem_all a := by cases a <;> decide
  words_nodup := by decide

end VariableKind

namespace PropertyKind

def word : PropertyKind → String
  | init => "init"
  | getter => "get"
  | setter => "set"

instance : Vocabulary PropertyKind where
  all := [init, getter, setter]
  word
  mem_all a := by cases a <;> decide
  words_nodup := by decide

end PropertyKind

namespace MethodKind

def word : MethodKind → String
  | constructor => "constructor"
  | method => "method"
  | getter => "get"
  | setter => "set"

instance : Vocabulary MethodKind where
  all := [constructor, method, getter, setter]
  word
  mem_all a := by cases a <;> decide
  words_nodup := by decide

end MethodKind

namespace UnaryOperator

def word : UnaryOperator → String
  | minus => "-"
  | plus => "+"
  | not => "!"
  | bitNot => "~"
  | typeof => "typeof"
  | void => "void"
  | delete => "delete"

instance : Vocabulary UnaryOperator where
  all := [minus, plus, not, bitNot, typeof, void, delete]
  word
  mem_all a := by cases a <;> decide
  words_nodup := by decide

/-- An operator that is a word needs a space before its operand. -/
def isKeyword : UnaryOperator → Bool
  | typeof | void | delete => true
  | _ => false

end UnaryOperator

namespace UpdateOperator

def word : UpdateOperator → String
  | increment => "++"
  | decrement => "--"

instance : Vocabulary UpdateOperator where
  all := [increment, decrement]
  word
  mem_all a := by cases a <;> decide
  words_nodup := by decide

end UpdateOperator

namespace BinaryOperator

def word : BinaryOperator → String
  | equal => "=="
  | notEqual => "!="
  | identical => "==="
  | notIdentical => "!=="
  | less => "<"
  | lessOrEqual => "<="
  | greater => ">"
  | greaterOrEqual => ">="
  | shiftLeft => "<<"
  | shiftRight => ">>"
  | shiftRightUnsigned => ">>>"
  | add => "+"
  | subtract => "-"
  | multiply => "*"
  | divide => "/"
  | remainder => "%"
  | power => "**"
  | bitOr => "|"
  | bitXor => "^"
  | bitAnd => "&"
  | member => "in"
  | instanceOf => "instanceof"

instance : Vocabulary BinaryOperator where
  all :=
    [equal, notEqual, identical, notIdentical, less, lessOrEqual, greater, greaterOrEqual,
      shiftLeft, shiftRight, shiftRightUnsigned, add, subtract, multiply, divide, remainder, power,
      bitOr, bitXor, bitAnd, member, instanceOf]
  word
  mem_all a := by cases a <;> decide
  words_nodup := by decide

end BinaryOperator

namespace LogicalOperator

def word : LogicalOperator → String
  | or => "||"
  | and => "&&"
  | coalesce => "??"

instance : Vocabulary LogicalOperator where
  all := [or, and, coalesce]
  word
  mem_all a := by cases a <;> decide
  words_nodup := by decide

end LogicalOperator

namespace AssignmentOperator

def word : AssignmentOperator → String
  | assign => "="
  | add => "+="
  | subtract => "-="
  | multiply => "*="
  | divide => "/="
  | remainder => "%="
  | power => "**="
  | shiftLeft => "<<="
  | shiftRight => ">>="
  | shiftRightUnsigned => ">>>="
  | bitOr => "|="
  | bitXor => "^="
  | bitAnd => "&="
  | or => "||="
  | and => "&&="
  | coalesce => "??="

instance : Vocabulary AssignmentOperator where
  all :=
    [assign, add, subtract, multiply, divide, remainder, power, shiftLeft, shiftRight,
      shiftRightUnsigned, bitOr, bitXor, bitAnd, or, and, coalesce]
  word
  mem_all a := by cases a <;> decide
  words_nodup := by decide

end AssignmentOperator

end SyntaxMarkup
