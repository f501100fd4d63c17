import SyntaxMarkup.Proofs.Layout.Characters

namespace SyntaxMarkup

/-- A word ends at the first character that is none of a word. -/
theorem append_inj_of_all {ofWord : Char → Bool} {word other rest rest' : List Char}
    (chars : word.all ofWord) (chars' : other.all ofWord)
    (ends : ∀ c ∈ rest.head?, ofWord c = false) (ends' : ∀ c ∈ rest'.head?, ofWord c = false)
    (same : word ++ rest = other ++ rest') : word = other ∧ rest = rest' := by
  have taken {word rest : List Char} (chars : word.all ofWord)
      (ends : ∀ c ∈ rest.head?, ofWord c = false) : (word ++ rest).takeWhile ofWord = word := by
    have none : rest.takeWhile ofWord = [] := by
      cases rest with
      | nil => rfl
      | cons c rest => simp [ends c rfl]
    rw [List.takeWhile_append_of_pos (List.all_eq_true.mp chars), none, List.append_nil]
  have words : word = other := by
    rw [← taken chars ends, same, taken chars' ends']
  exact ⟨words, List.append_cancel_left (words ▸ same)⟩

section Tells

variable {α β : Type} {ends : List Char → Prop} {text : α → List Char} {view : α → β}

/-- Whether a text tells what can be seen of the item that it is written for, as long as what
follows it is among the ways to go on from an item. -/
def Tells (ends : List Char → Prop) (text : α → List Char) (view : α → β) (item : α) : Prop :=
  ∀ (other : α) (rest rest' : List Char), ends rest → ends rest' →
    text item ++ rest = text other ++ rest' → view item = view other ∧ rest = rest'

/-- An item ends at a comma and at a closing parenthesis. -/
structure EndsArgument (ends : List Char → Prop) : Prop where
  comma : ∀ rest, ends (',' :: rest)
  paren : ∀ rest, ends (')' :: rest)

theorem EndsArgument.others (ending : EndsArgument ends) (items : List α) (rest : List Char) :
    ends ((items.flatMap fun item => ',' :: ' ' :: text item) ++ ')' :: rest) := by
  cases items with
  | nil => exact ending.paren rest
  | cons => exact ending.comma _

/-- The arguments after the first one, up to the parenthesis. -/
theorem others_told (ending : EndsArgument ends) {items others : List α} {rest rest' : List Char}
    (each : ∀ item ∈ items, Tells ends text view item)
    (same : (items.flatMap fun item => ',' :: ' ' :: text item) ++ ')' :: rest =
      (others.flatMap fun item => ',' :: ' ' :: text item) ++ ')' :: rest') :
    items.map view = others.map view ∧ rest = rest' := by
  induction items generalizing others with
  | nil =>
    cases others with
    | nil => exact ⟨rfl, (List.cons.inj same).2⟩
    | cons => cases (List.cons.inj same).1
  | cons item items ih =>
    obtain ⟨first, later⟩ := List.forall_mem_cons.mp each
    cases others with
    | nil => cases (List.cons.inj same).1
    | cons other others =>
      simp only [List.flatMap_cons, List.cons_append, List.append_assoc, List.cons.injEq,
        true_and] at same
      obtain ⟨here, same⟩ :=
        first other _ _ (ending.others items rest) (ending.others others rest') same
      obtain ⟨tails, rests⟩ := ih later same
      exact ⟨congrArg₂ List.cons here tails, rests⟩

theorem joined_append (item : α) (items : List α) (rest : List Char) :
    joined ((item :: items).map text) ++ rest =
      text item ++ ((items.flatMap fun item => ',' :: ' ' :: text item) ++ rest) := by
  rw [List.map_cons, joined, List.flatMap_map, List.append_assoc]

/-- Arguments are told by their text, up to the parenthesis after them, where none of them starts
with a parenthesis. -/
theorem joined_told (ending : EndsArgument ends) {items others : List α} {rest rest' : List Char}
    (starts : ∀ (item : α) (rest rest' : List Char), text item ++ rest ≠ ')' :: rest')
    (each : ∀ item ∈ items, Tells ends text view item)
    (same : joined (items.map text) ++ ')' :: rest = joined (others.map text) ++ ')' :: rest') :
    items.map view = others.map view ∧ rest = rest' := by
  cases items with
  | nil =>
    cases others with
    | nil => exact ⟨rfl, (List.cons.inj same).2⟩
    | cons other others =>
      rw [joined_append] at same
      exact absurd same.symm (starts _ _ _)
  | cons item items =>
    cases others with
    | nil =>
      rw [joined_append] at same
      exact absurd same (starts _ _ _)
    | cons other others =>
      obtain ⟨first, later⟩ := List.forall_mem_cons.mp each
      rw [joined_append, joined_append] at same
      obtain ⟨here, same⟩ :=
        first other _ _ (ending.others items rest) (ending.others others rest') same
      obtain ⟨tails, rests⟩ := others_told ending later same
      exact ⟨congrArg₂ List.cons here tails, rests⟩

end Tells

end SyntaxMarkup
