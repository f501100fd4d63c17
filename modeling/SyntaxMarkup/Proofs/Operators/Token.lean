import SyntaxMarkup.Proofs.Operators.Phrase
import Mathlib.Data.List.Basic

namespace SyntaxMarkup

/-- The first token of a text and the rest: a word, a doubled sign, or one other character. -/
def firstToken : List Char → List Char × List Char
  | '+' :: '+' :: rest => (['+', '+'], rest)
  | '-' :: '-' :: rest => (['-', '-'], rest)
  | c :: rest =>
    if isNameChar c then ((c :: rest).takeWhile isNameChar, (c :: rest).dropWhile isNameChar)
    else ([c], rest)
  | [] => ([], [])

theorem firstToken_word {word rest : List Char} (nonempty : word ≠ [])
    (chars : word.all isNameChar) (ends : ∀ c ∈ rest.head?, isNameChar c = false) :
    firstToken (word ++ rest) = (word, rest) := by
  have each : ∀ c ∈ word, isNameChar c = true := List.all_eq_true.mp chars
  have taken : rest.takeWhile isNameChar = [] ∧ rest.dropWhile isNameChar = rest := by
    cases rest with
    | nil => exact ⟨rfl, rfl⟩
    | cons c rest => simp [ends c rfl]
  cases word with
  | nil => exact absurd rfl nonempty
  | cons c word =>
    have first : isNameChar c = true := each c List.mem_cons_self
    have split : firstToken (c :: (word ++ rest)) =
        ((c :: (word ++ rest)).takeWhile isNameChar,
          (c :: (word ++ rest)).dropWhile isNameChar) := by
      unfold firstToken
      split
      next eq =>
        cases (List.cons.inj eq).1
        cases first
      next eq =>
        cases (List.cons.inj eq).1
        cases first
      next eq =>
        cases eq
        rw [if_pos first]
      next eq => cases eq
    rw [List.cons_append, split, ← List.cons_append, List.takeWhile_append_of_pos each,
      List.dropWhile_append_of_pos each, taken.1, taken.2, List.append_nil]

theorem firstToken_sign {c : Char} {rest : List Char} (other : isNameChar c = false)
    (plus : c = '+' → rest.head? ≠ some '+') (minus : c = '-' → rest.head? ≠ some '-') :
    firstToken (c :: rest) = ([c], rest) := by
  unfold firstToken
  split
  next eq =>
    cases eq
    exact absurd rfl (plus rfl)
  next eq =>
    cases eq
    exact absurd rfl (minus rfl)
  next eq =>
    cases eq
    rw [other]
    rfl
  next eq => cases eq

namespace InfixOperator

theorem space_not_mem_word (operator : InfixOperator) : ' ' ∉ operator.word.toList := by
  cases operator with
  | binary operator => cases operator <;> decide
  | logical operator => cases operator <;> decide
  | assignment operator => cases operator <;> decide
  | comma | question => decide

theorem text_of_ne_comma {operator : InfixOperator} (h : operator ≠ .comma) :
    operator.text = ' ' :: operator.word.toList ++ [' '] := by
  cases operator with
  | comma => exact absurd rfl h
  | binary | logical | assignment | question => rfl

theorem word_append_inj {word word' rest rest' : List Char} (hspace : ' ' ∉ word)
    (hspace' : ' ' ∉ word') (h : word ++ ' ' :: rest = word' ++ ' ' :: rest') :
    word = word' ∧ rest = rest' := by
  induction word generalizing word' with
  | nil =>
    cases word' with
    | nil => exact ⟨rfl, (List.cons.inj h).2⟩
    | cons c word' =>
      cases (List.cons.inj h).1
      exact absurd List.mem_cons_self hspace'
  | cons c word ih =>
    cases word' with
    | nil =>
      cases (List.cons.inj h).1
      exact absurd List.mem_cons_self hspace
    | cons d word' =>
      obtain ⟨rfl, tails⟩ := List.cons.inj h
      obtain ⟨rfl, rests⟩ := ih (fun hm => hspace (.tail _ hm))
        (fun hm => hspace' (.tail _ hm)) tails
      exact ⟨rfl, rests⟩

/-- A text starts with at most one operator. -/
theorem text_append_inj {operator other : InfixOperator} {rest rest' : List Char}
    (h : operator.text ++ rest = other.text ++ rest') : operator = other ∧ rest = rest' := by
  by_cases comma : operator = .comma
  · by_cases comma' : other = .comma
    · subst comma comma'
      exact ⟨rfl, List.append_cancel_left h⟩
    · rw [comma, text_of_ne_comma comma'] at h
      cases h
  · by_cases comma' : other = .comma
    · rw [comma', text_of_ne_comma comma] at h
      cases h
    · rw [text_of_ne_comma comma, text_of_ne_comma comma'] at h
      obtain ⟨words, rests⟩ := word_append_inj operator.space_not_mem_word
        other.space_not_mem_word (by simpa using h)
      exact ⟨Vocabulary.eq_of_word_eq (String.toList_inj.mp words), rests⟩

theorem text_append_ne_colon (operator : InfixOperator) (rest rest' : List Char) :
    operator.text ++ rest ≠ " : ".toList ++ rest' := by
  intro h
  by_cases comma : operator = .comma
  · rw [comma] at h
    cases h
  · rw [text_of_ne_comma comma] at h
    have texts : operator.word.toList ++ ' ' :: rest = [':'] ++ ' ' :: rest' := by simpa using h
    obtain ⟨words, -⟩ := word_append_inj operator.space_not_mem_word (by decide) texts
    have hc : ∀ other ∈ (Vocabulary.all : List InfixOperator), other.word.toList ≠ [':'] := by
      decide
    exact hc operator (Vocabulary.mem_all operator) words

end InfixOperator

/-- What may come after an operand whose place asks for some strength: the end of what it is in,
or an operator that is too weak for the place. -/
inductive Stop (least : Strength) : List Char → Prop
  | paren (rest : List Char) : Stop least (')' :: rest)
  | semicolon (rest : List Char) : Stop least (';' :: rest)
  | colon (rest : List Char) : Stop least (" : ".toList ++ rest)
  | operator (next : InfixOperator) (rest : List Char) (weaker : next.level < least) :
    Stop least (next.text ++ rest)

namespace Stop

theorem mono {least more : Strength} {rest : List Char} (stop : Stop least rest)
    (h : least ≤ more) : Stop more rest := by
  cases stop with
  | paren rest => exact .paren rest
  | semicolon rest => exact .semicolon rest
  | colon rest => exact .colon rest
  | operator next rest weaker => exact .operator next rest (Nat.lt_of_lt_of_le weaker h)

theorem level_lt {least : Strength} {operator : InfixOperator} {rest : List Char}
    (stop : Stop least (operator.text ++ rest)) : operator.level < least := by
  generalize eq : operator.text ++ rest = text at stop
  cases stop with
  | paren | semicolon =>
    by_cases comma : operator = .comma
    · rw [comma] at eq
      cases eq
    · rw [InfixOperator.text_of_ne_comma comma] at eq
      cases eq
  | colon => exact absurd eq (operator.text_append_ne_colon _ _)
  | operator next _ weaker =>
    obtain ⟨rfl, -⟩ := InfixOperator.text_append_inj eq
    exact weaker

theorem unary {least : Strength} {rest : List Char} (stop : Stop least rest) :
    Stop .unary rest := by
  cases stop with
  | paren rest => exact .paren rest
  | semicolon rest => exact .semicolon rest
  | colon rest => exact .colon rest
  | operator next rest weaker => exact .operator next rest next.level_lt_unary

end Stop

theorem Stop.exists_cons {least : Strength} {rest : List Char} (stop : Stop least rest) :
    ∃ c tail, rest = c :: tail ∧ c ∈ [')', ';', ' ', ','] := by
  cases stop with
  | paren tail => exact ⟨_, tail, rfl, by decide⟩
  | semicolon tail => exact ⟨_, tail, rfl, by decide⟩
  | colon tail => exact ⟨_, _, rfl, by decide⟩
  | operator next tail =>
    by_cases comma : next = .comma
    · exact ⟨',', ' ' :: tail, by rw [comma]; rfl, by decide⟩
    · rw [InfixOperator.text_of_ne_comma comma]
      exact ⟨' ', _, rfl, by decide⟩

theorem VariableName.exists_cons (name : VariableName) :
    ∃ c tail, name.text.toList = c :: tail ∧ isNameChar c = true := by
  have start := name.start
  cases eq : name.text.toList with
  | nil => simp [eq] at start
  | cons c tail =>
    refine ⟨c, tail, rfl, ?_⟩
    have chars := List.all_eq_true.mp name.chars
    exact chars c (eq ▸ List.mem_cons_self)

theorem VariableName.ne_nil (name : VariableName) : name.text.toList ≠ [] := by
  obtain ⟨c, tail, eq, -⟩ := name.exists_cons
  rw [eq]
  exact List.cons_ne_nil c tail

theorem PrefixOperator.exists_cons (operator : PrefixOperator) :
    ∃ c tail, operator.word.toList = c :: tail ∧ c ≠ ' ' ∧ (c = '-' → operator = .unary .minus) ∧
      (c = '+' → operator = .unary .plus) := by
  rcases operator with operator | _
  · cases operator <;> exact ⟨_, _, rfl, by decide, by decide, by decide⟩
  · exact ⟨_, _, rfl, by decide, by decide, by decide⟩

/-- A prefix operator is a word or one character. -/
theorem PrefixOperator.word_cases (operator : PrefixOperator) :
    operator.isKeyword = true ∧ operator.word.toList ≠ [] ∧ operator.word.toList.all isNameChar ∨
      ∃ c, operator.word.toList = [c] ∧ isNameChar c = false ∧
        (c = '-' → operator = .unary .minus) ∧ (c = '+' → operator = .unary .plus) := by
  rcases operator with operator | _
  · cases operator with
    | typeof | void | delete => exact .inl (by decide)
    | minus | plus | not | bitNot => exact .inr ⟨_, rfl, by decide, by decide, by decide⟩
  · exact .inl (by decide)

theorem UpdateOperator.exists_cons (operator : UpdateOperator) :
    ∃ c tail, operator.word.toList = c :: tail ∧
      (c = '-' ∧ operator = .decrement ∨ c = '+' ∧ operator = .increment) := by
  cases operator <;> exact ⟨_, _, rfl, by decide⟩

theorem Stop.ne_update {least : Strength} {rest rest' : List Char} (stop : Stop least rest)
    (operator : UpdateOperator) : rest ≠ operator.word.toList ++ rest' := by
  obtain ⟨c, tail, rfl, ends⟩ := stop.exists_cons
  obtain ⟨c', tail', eq, sign⟩ := operator.exists_cons
  rw [eq]
  rintro ⟨⟩
  rcases sign with ⟨rfl, -⟩ | ⟨rfl, -⟩ <;> simp at ends

inductive Opener where
  | paren
  | prefixed (operator : PrefixOperator)
  | update (operator : UpdateOperator)

namespace Opener

def word : Opener → String
  | paren => "("
  | prefixed operator => operator.word
  | update operator => operator.word

instance : Vocabulary Opener where
  all := paren :: (Vocabulary.all.map prefixed ++ Vocabulary.all.map update)
  word
  mem_all a := by cases a <;> simp [Vocabulary.mem_all]
  words_nodup := by decide

end Opener

theorem VariableName.ne_word (name : VariableName) (opener : Opener) : name.text ≠ opener.word := by
  have hn : ∀ other ∈ (Vocabulary.all : List Opener),
      other.word ∈ reservedWords ∨ other.word.toList.all isNameChar = false := by decide
  intro same
  rcases hn opener (Vocabulary.mem_all opener) with reserved | other
  · exact name.free (same ▸ reserved)
  · rw [← same, name.chars] at other
    cases other

inductive Token where
  | identifier (name : VariableName)
  | opener (opener : Opener)

namespace Token

def text : Token → List Char
  | identifier name => name.text.toList
  | opener start => start.word.toList

theorem text_inj {token other : Token} (h : token.text = other.text) : token = other := by
  cases token with
  | identifier name =>
    cases other with
    | identifier name' => exact congrArg identifier (VariableName.ext (String.toList_inj.mp h))
    | opener start => exact absurd (String.toList_inj.mp h) (name.ne_word start)
  | opener start =>
    cases other with
    | identifier name => exact absurd (String.toList_inj.mp h).symm (name.ne_word start)
    | opener start' =>
      exact congrArg opener (Vocabulary.eq_of_word_eq (String.toList_inj.mp h))

end Token

end SyntaxMarkup
