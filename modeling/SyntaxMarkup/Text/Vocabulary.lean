namespace SyntaxMarkup

/-- A type with finitely many values, each of which has a word of its own. -/
class Vocabulary (α : Type) where
  all : List α
  word : α → String
  mem_all (a : α) : a ∈ all
  words_nodup : (all.map word).Nodup

theorem eq_of_nodup_map {α : Type} {f : α → String} {items : List α}
    (nodup : (items.map f).Nodup) {a b : α} (ha : a ∈ items) (hb : b ∈ items) (h : f a = f b) :
    a = b := by
  induction items with
  | nil => exact nomatch ha
  | cons c rest ih =>
    obtain ⟨new, restNodup⟩ := List.nodup_cons.mp nodup
    rcases List.mem_cons.mp ha with rfl | hrest
    · rcases List.mem_cons.mp hb with rfl | hrest
      · rfl
      · exact absurd (h ▸ List.mem_map_of_mem hrest) new
    · rcases List.mem_cons.mp hb with rfl | alsoInRest
      · exact absurd (h ▸ List.mem_map_of_mem hrest) new
      · exact ih restNodup hrest alsoInRest

namespace Vocabulary

variable {α : Type} [Vocabulary α]

def ofWord? (text : String) : Option α :=
  all.find? (word · == text)

theorem eq_of_word_eq {a b : α} (h : word a = word b) : a = b :=
  eq_of_nodup_map words_nodup (mem_all a) (mem_all b) h

/-- A text is read as a value exactly if it is the word of the value. -/
theorem ofWord?_eq_some_iff {text : String} {a : α} : ofWord? text = some a ↔ word a = text := by
  constructor
  · intro h
    simpa using List.find?_some h
  · rintro rfl
    unfold ofWord?
    cases hf : (all : List α).find? (word · == word a) with
    | none => simpa using List.find?_eq_none.mp hf a (mem_all a)
    | some b =>
      have same : word b = word a := by simpa using List.find?_some hf
      rw [eq_of_word_eq same]

end Vocabulary

end SyntaxMarkup
