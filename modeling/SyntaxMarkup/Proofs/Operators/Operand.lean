import SyntaxMarkup.Proofs.Operators.Token

namespace SyntaxMarkup

namespace Phrase

theorem isOperand_of_le {phrase : Phrase} (h : .unary ≤ phrase.strength) : phrase.IsOperand := by
  cases phrase with
  | joined left operator right => exact absurd operator.level_lt_unary (Nat.not_lt.mpr h)
  | conditional => exact absurd h (by decide : ¬Strength.unary ≤ .conditional)
  | identifier | paren | prefixed | update => rfl

def token : Phrase → Token
  | identifier name => .identifier name
  | prefixed operator _ => .opener (.prefixed operator)
  | update operator true _ => .opener (.update operator)
  | update _ false name => .identifier name
  | _ => .opener .paren

def remainder : Phrase → List Char
  | paren inner => inner.text ++ [')']
  | prefixed operator argument => argument.gap operator ++ argument.text
  | update _ true name => name.text.toList
  | update operator false _ => operator.word.toList
  | _ => []

/-- An operand starts with a sign only if a sign before it would run into it. -/
theorem exists_cons {phrase : Phrase} (operand : phrase.IsOperand) :
    ∃ c tail, phrase.text = c :: tail ∧ c ≠ ' ' ∧
      (c = '-' → phrase.runsInto (.unary .minus) = true) ∧
      (c = '+' → phrase.runsInto (.unary .plus) = true) := by
  have hn {c : Char} (nameChar : isNameChar c = true) : c ≠ ' ' ∧ c ≠ '-' ∧ c ≠ '+' := by
    refine ⟨?_, ?_, ?_⟩ <;> rintro rfl <;> cases nameChar
  cases phrase with
  | identifier name =>
    obtain ⟨c, tail, eq, nameChar⟩ := name.exists_cons
    obtain ⟨space, minus, plus⟩ := hn nameChar
    exact ⟨c, tail, eq, space, fun h => absurd h minus, fun h => absurd h plus⟩
  | paren inner =>
    exact ⟨_, _, rfl, by decide, fun h => absurd h (by decide), fun h => absurd h (by decide)⟩
  | prefixed operator argument =>
    obtain ⟨c, tail, eq, space, minus, plus⟩ := operator.exists_cons
    refine ⟨c, _, by rw [text, eq]; rfl, space, fun h => ?_, fun h => ?_⟩
    · rw [minus h]; rfl
    · rw [plus h]; rfl
  | update operator leading name =>
    cases leading with
    | true =>
      obtain ⟨c, tail, eq, sign⟩ := operator.exists_cons
      refine ⟨c, _, by rw [text, eq]; rfl, ?_⟩
      rcases sign with ⟨rfl, rfl⟩ | ⟨rfl, rfl⟩
      · exact ⟨by decide, fun _ => rfl, fun h => absurd h (by decide)⟩
      · exact ⟨by decide, fun h => absurd h (by decide), fun _ => rfl⟩
    | false =>
      obtain ⟨c, tail, eq, nameChar⟩ := name.exists_cons
      obtain ⟨space, minus, plus⟩ := hn nameChar
      refine ⟨c, _, by rw [text, eq]; rfl, space, fun h => absurd h minus, fun h => absurd h plus⟩
  | joined => simp [IsOperand, steps] at operand
  | conditional => simp [IsOperand, steps] at operand

theorem head?_gap_ne {operator : PrefixOperator} {argument : Phrase} (operand : argument.IsOperand)
    {c : Char} (sign : c = '-' ∧ operator = .unary .minus ∨ c = '+' ∧ operator = .unary .plus)
    (rest : List Char) :
    (argument.gap operator ++ argument.text ++ rest).head? ≠ some c := by
  obtain ⟨first, tail, eq, space, minus, plus⟩ := exists_cons operand
  unfold gap
  split
  next => rcases sign with ⟨rfl, -⟩ | ⟨rfl, -⟩ <;> simp
  next ha =>
    rw [eq]
    rintro same
    have same : first = c := by simpa using same
    rcases sign with ⟨rfl, rfl⟩ | ⟨rfl, rfl⟩
    · simp [minus same] at ha
    · simp [plus same] at ha

/-- The first token of an operand does not run into the rest. -/
theorem firstToken_operand {phrase : Phrase} (operand : phrase.IsOperand) (valid : phrase.Valid)
    {least : Strength} {rest : List Char} (stop : Stop least rest) :
    firstToken (phrase.text ++ rest) = (phrase.token.text, phrase.remainder ++ rest) := by
  obtain ⟨c, tail, rfl, ends⟩ := stop.exists_cons
  have hn : isNameChar c = false := by
    simp only [List.mem_cons, List.not_mem_nil, or_false] at ends
    rcases ends with rfl | rfl | rfl | rfl <;> decide
  cases phrase with
  | identifier name =>
    refine firstToken_word name.ne_nil name.chars fun d hm => ?_
    cases hm
    exact hn
  | paren inner =>
    have sign : firstToken ('(' :: (inner.text ++ [')'] ++ c :: tail)) =
        (['('], inner.text ++ [')'] ++ c :: tail) :=
      firstToken_sign (by decide) (fun h => absurd h (by decide)) (fun h => absurd h (by decide))
    simpa [text, token, Token.text, Opener.word, remainder] using sign
  | prefixed operator argument =>
    have operand := isOperand_of_le valid.2
    rcases operator.word_cases with ⟨keyword, nonempty, chars⟩ | ⟨c, word, other, minus, plus⟩
    · have ha : argument.gap operator = [' '] := by simp [gap, keyword]
      simp only [text, token, Token.text, Opener.word, remainder, ha, List.append_assoc]
      exact firstToken_word nonempty chars fun d hm => by cases hm; decide
    · simp only [text, token, Token.text, Opener.word, remainder, word, List.append_assoc]
      refine firstToken_sign other (fun h => ?_) (fun h => ?_)
      · rw [← List.append_assoc]
        exact head?_gap_ne operand (.inr ⟨rfl, plus h⟩) _
      · rw [← List.append_assoc]
        exact head?_gap_ne operand (.inl ⟨rfl, minus h⟩) _
  | update operator leading name =>
    cases leading with
    | true => cases operator <;> rfl
    | false =>
      simp only [text, token, Token.text, remainder, List.append_assoc]
      refine firstToken_word name.ne_nil name.chars fun d hm => ?_
      cases operator <;> cases hm <;> decide
  | joined => simp [IsOperand, steps] at operand
  | conditional => simp [IsOperand, steps] at operand

/-- Whether a phrase is read back from its text, in every place and before everything that may
come after it there. -/
def Determined (phrase : Phrase) : Prop :=
  ∀ (other : Phrase) (least : Strength) (rest rest' : List Char), other.Valid →
    least ≠ .conditional → least ≤ phrase.strength → least ≤ other.strength →
    Stop least rest → Stop least rest' → phrase.text ++ rest = other.text ++ rest' →
    phrase = other ∧ rest = rest'

def inside : Phrase → List Phrase
  | paren inner => [inner]
  | prefixed _ argument => [argument]
  | _ => []

theorem update_append_inj {operator other : UpdateOperator} {rest rest' : List Char}
    (h : operator.word.toList ++ rest = other.word.toList ++ rest') :
    operator = other ∧ rest = rest' := by
  cases operator <;> cases other <;> simp_all [UpdateOperator.word]

theorem gap_append_inj {operator : PrefixOperator} {argument other : Phrase}
    (operand : argument.IsOperand) (operand' : other.IsOperand) {rest rest' : List Char}
    (h : argument.gap operator ++ (argument.text ++ rest) =
      other.gap operator ++ (other.text ++ rest')) :
    argument.text ++ rest = other.text ++ rest' := by
  obtain ⟨c, tail, eq, space, -⟩ := exists_cons operand
  obtain ⟨c', tail', eq', space', -⟩ := exists_cons operand'
  unfold gap at h
  rw [eq, eq'] at h ⊢
  split at h <;> split at h
  · exact List.append_cancel_left h
  -- a space on one side only would have to be the first character of an operand
  · exact absurd (List.cons.inj h).1.symm space'
  · exact absurd (List.cons.inj h).1 space
  · exact h

theorem name_append_inj {name name' : VariableName} {least : Strength} {rest rest' : List Char}
    (stop : Stop least rest) (stop' : Stop least rest')
    (h : name.text.toList ++ rest = name'.text.toList ++ rest') : name = name' ∧ rest = rest' := by
  have lexed : firstToken ((identifier name).text ++ rest) =
      firstToken ((identifier name').text ++ rest') := congrArg firstToken h
  have operand (name : VariableName) : (identifier name).IsOperand := rfl
  rw [firstToken_operand (operand name) trivial stop,
    firstToken_operand (operand name') trivial stop'] at lexed
  obtain ⟨tokens, rests⟩ := Prod.mk.inj lexed
  cases Token.text_inj tokens
  exact ⟨rfl, rests⟩

theorem eq_paren_of_token {phrase : Phrase} (operand : phrase.IsOperand)
    (h : phrase.token = .opener .paren) : ∃ inner, phrase = paren inner := by
  cases phrase with
  | paren inner => exact ⟨inner, rfl⟩
  | update operator leading name => cases leading <;> cases h
  | identifier | prefixed => cases h
  | joined | conditional => simp [IsOperand, steps] at operand

theorem eq_prefixed_of_token {phrase : Phrase} {operator : PrefixOperator}
    (h : phrase.token = .opener (.prefixed operator)) :
    ∃ argument, phrase = prefixed operator argument := by
  cases phrase with
  | prefixed operator' argument =>
    cases h
    exact ⟨argument, rfl⟩
  | update operator' leading name => cases leading <;> cases h
  | identifier | paren | joined | conditional => cases h

theorem eq_update_of_token {phrase : Phrase} {operator : UpdateOperator}
    (h : phrase.token = .opener (.update operator)) :
    ∃ name, phrase = update operator true name := by
  cases phrase with
  | update operator' leading name =>
    cases leading with
    | true =>
      cases h
      exact ⟨name, rfl⟩
    | false => cases h
  | identifier | paren | prefixed | joined | conditional => cases h

theorem eq_name_of_token {phrase : Phrase} {name : VariableName}
    (h : phrase.token = .identifier name) :
    phrase = identifier name ∨ ∃ operator, phrase = update operator false name := by
  cases phrase with
  | identifier name' =>
    cases h
    exact .inl rfl
  | update operator leading name' =>
    cases leading with
    | true => cases h
    | false =>
      cases h
      exact .inr ⟨operator, rfl⟩
  | paren | prefixed | joined | conditional => cases h

/-- Operands are read back from their texts if the phrases inside are. -/
theorem operand_append_inj {phrase other : Phrase} (operand : phrase.IsOperand)
    (operand' : other.IsOperand) (valid : phrase.Valid) (valid' : other.Valid)
    (inside : ∀ part ∈ phrase.inside, part.Determined) {least : Strength} {rest rest' : List Char}
    (stop : Stop least rest) (stop' : Stop least rest')
    (h : phrase.text ++ rest = other.text ++ rest') : phrase = other ∧ rest = rest' := by
  have lexed := congrArg firstToken h
  rw [firstToken_operand operand valid stop, firstToken_operand operand' valid' stop'] at lexed
  obtain ⟨tokens, remainders⟩ := Prod.mk.inj lexed
  have tokens := (Token.text_inj tokens).symm
  cases phrase with
  | identifier name =>
    obtain rfl | ⟨operator, rfl⟩ := eq_name_of_token tokens
    · exact ⟨rfl, remainders⟩
    · exact absurd remainders (stop.ne_update operator)
  | paren inner =>
    obtain ⟨inner', rfl⟩ := eq_paren_of_token operand' tokens
    have texts : inner.text ++ ')' :: rest = inner'.text ++ ')' :: rest' := by
      simpa [remainder] using remainders
    obtain ⟨rfl, rests⟩ := inside inner List.mem_cons_self inner' .sequence _ _ valid'
      (by decide) inner.sequence_le_strength inner'.sequence_le_strength (.paren rest)
      (.paren rest') texts
    exact ⟨rfl, (List.cons.inj rests).2⟩
  | prefixed operator argument =>
    obtain ⟨argument', rfl⟩ := eq_prefixed_of_token tokens
    have texts := gap_append_inj (isOperand_of_le valid.2) (isOperand_of_le valid'.2)
      (by simpa [remainder] using remainders)
    obtain ⟨rfl, rests⟩ := inside argument List.mem_cons_self argument' .unary _ _ valid'.1
      (by decide) valid.2 valid'.2 stop.unary stop'.unary texts
    exact ⟨rfl, rests⟩
  | update operator leading name =>
    cases leading with
    | true =>
      obtain ⟨name', rfl⟩ := eq_update_of_token tokens
      obtain ⟨rfl, rests⟩ := name_append_inj stop stop' remainders
      exact ⟨rfl, rests⟩
    | false =>
      obtain rfl | ⟨operator', rfl⟩ := eq_name_of_token tokens
      · exact absurd remainders.symm (stop'.ne_update operator)
      · obtain ⟨rfl, rests⟩ := update_append_inj remainders
        exact ⟨rfl, rests⟩
  | joined | conditional => simp [IsOperand, steps] at operand

end Phrase

end SyntaxMarkup
