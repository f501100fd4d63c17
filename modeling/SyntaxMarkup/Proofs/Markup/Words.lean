import SyntaxMarkup.Text.Blank

namespace SyntaxMarkup

def isWordChar (c : Char) : Bool :=
  c.isAlphanum || c == '_' || c == '$'

/-- The word that a text starts with, if it starts with one. -/
def firstWord (text : List Char) : List Char :=
  text.takeWhile isWordChar

/-- Whether a text starts with `function`, `class` or `async function`. -/
def beginsDeclaration (text : List Char) : Bool :=
  firstWord text == "function".toList || firstWord text == "class".toList ||
    (firstWord text == "async".toList &&
      firstWord ((text.dropWhile isWordChar).dropWhile Text.isBlank) == "function".toList)

/-- Text that a reader takes neither for a block nor for a declaration. -/
structure Harmless (text : List Char) : Prop where
  brace : text.head? ≠ some '\x7b'
  declaration : beginsDeclaration text = false

/-- Text that may follow a word: it neither goes on with the word nor makes it a declaration. -/
structure Apart (rest : List Char) : Prop where
  head : ∀ c ∈ rest.head?, isWordChar c = false ∧ c ≠ '\x7b'
  next : firstWord (rest.dropWhile Text.isBlank) ≠ "function".toList

theorem firstWord_cons {c : Char} (hw : isWordChar c = false) (rest : List Char) :
    firstWord (c :: rest) = [] :=
  List.takeWhile_cons_of_neg (by simp [hw])

/-- What follows a text does not go on with its first word, unless the text is a word. -/
theorem firstWord_append {text rest : List Char}
    (ends : text.all isWordChar = true → ∀ c ∈ rest.head?, isWordChar c = false) :
    firstWord (text ++ rest) = firstWord text := by
  induction text with
  | nil =>
    cases rest with
    | nil => rfl
    | cons c rest => exact firstWord_cons (ends rfl c rfl) rest
  | cons c text ih =>
    cases hw : isWordChar c with
    | false => exact (firstWord_cons hw _).trans (firstWord_cons hw _).symm
    | true =>
      have more := ih fun all => ends (by rw [List.all_cons, hw, all]; rfl)
      rw [List.cons_append, firstWord, firstWord, List.takeWhile_cons_of_pos hw,
        List.takeWhile_cons_of_pos hw]
      exact congrArg (c :: ·) more

/-- No declaration starts with a symbol. -/
theorem beginsDeclaration_append {text : List Char}
    (symbol : text.head?.any (fun c => !isWordChar c) = true) (rest : List Char) :
    beginsDeclaration (text ++ rest) = false := by
  cases text with
  | nil => cases symbol
  | cons c text =>
    rw [beginsDeclaration, List.cons_append, firstWord_cons (by simpa using symbol)]
    rfl

theorem Apart.harmless {rest : List Char} (ha : Apart rest) : Harmless rest := by
  cases rest with
  | nil => exact ⟨nofun, by decide⟩
  | cons c rest =>
    obtain ⟨hw, hb⟩ := ha.head c rfl
    exact ⟨by simpa using hb, @beginsDeclaration_append [c] (by simp [hw]) rest⟩

namespace Apart

theorem nil : Apart [] :=
  ⟨nofun, by decide⟩

/-- Whether a text starts with a symbol other than a brace, with a blank before it or not. -/
def startsSymbol (text : List Char) : Bool :=
  (text.head?.any fun c => !isWordChar c && c != '\x7b') &&
    (text.dropWhile Text.isBlank).head?.any fun c => !isWordChar c

theorem of_symbol {text : List Char} (symbol : startsSymbol text = true) (rest : List Char) :
    Apart (text ++ rest) := by
  rw [startsSymbol, Bool.and_eq_true, Option.any_eq_true, Option.any_eq_true] at symbol
  obtain ⟨⟨c, hf, hword⟩, d, hn, hword'⟩ := symbol
  constructor
  · rw [List.head?_append, hf]
    rintro _ ⟨⟩
    simpa using hword
  · obtain ⟨more, eq⟩ := List.head?_eq_some_iff.mp hn
    rw [List.dropWhile_append, eq, List.isEmpty_cons, if_neg Bool.false_ne_true, List.cons_append,
      firstWord_cons (by simpa using hword')]
    decide

/-- An operator between blanks. -/
theorem of_operator {operator : List Char}
    (word : operator.head?.any (fun c => !Text.isBlank c) = true)
    (other : firstWord operator ≠ "function".toList) (rest : List Char) :
    Apart (" ".toList ++ (operator ++ (" ".toList ++ rest))) where
  head := by
    rintro _ ⟨⟩
    decide
  next := by
    have blank : " ".toList.dropWhile Text.isBlank = [] := by decide
    rw [List.dropWhile_append, blank, List.isEmpty_nil, if_pos rfl]
    cases operator with
    | nil => cases word
    | cons c operator =>
      rw [List.cons_append, List.dropWhile_cons_of_neg (by simpa using word), ← List.cons_append,
        firstWord_append]
      · exact other
      · rintro - _ ⟨⟩
        decide

end Apart

/-- Whether a text starts with what is neither a brace nor a word of a declaration. -/
def isPlainText (text : List Char) : Bool :=
  text.head?.any (· ≠ '\x7b') &&
    ["function", "class", "async"].all fun word => firstWord text != word.toList

namespace Harmless

theorem of_text {text rest : List Char} (plain : isPlainText text = true)
    (ends : text.all isWordChar = true → ∀ c ∈ rest.head?, isWordChar c = false) :
    Harmless (text ++ rest) := by
  simp only [isPlainText, Bool.and_eq_true, Option.any_eq_true, decide_eq_true_eq, List.all_cons,
    List.all_nil, Bool.and_true, bne_iff_ne] at plain
  obtain ⟨⟨c, first, hb⟩, hfun, hc, ha⟩ := plain
  constructor
  · rw [List.head?_append, first]
    simpa using hb
  · rw [beginsDeclaration, firstWord_append ends, beq_eq_false_iff_ne.mpr hfun,
      beq_eq_false_iff_ne.mpr hc, beq_eq_false_iff_ne.mpr ha]
    rfl

/-- A name other than the words of declarations, with what may follow it. -/
theorem of_name {name rest : List Char} (hn : name.all isWordChar = true)
    (hfun : name ≠ "function".toList) (hc : name ≠ "class".toList)
    (ha : Apart rest) : Harmless (name ++ rest) := by
  have hn := List.all_eq_true.mp hn
  have whole : firstWord (name ++ rest) = name := by
    rw [firstWord_append fun _ c h => (ha.head c h).1]
    have self := @List.takeWhile_append_of_pos _ isWordChar name [] hn
    rwa [List.takeWhile_nil, List.append_nil] at self
  have after : (name ++ rest).dropWhile isWordChar = rest := by
    have split := List.takeWhile_append_dropWhile (p := isWordChar) (l := name ++ rest)
    rw [show (name ++ rest).takeWhile isWordChar = name from whole] at split
    exact List.append_cancel_left split
  constructor
  · cases name with
    | nil => exact ha.harmless.brace
    | cons c name =>
      rintro ⟨⟩
      exact absurd (hn _ List.mem_cons_self) (by decide)
  · rw [beginsDeclaration, whole, after, beq_eq_false_iff_ne.mpr hfun,
      beq_eq_false_iff_ne.mpr hc, beq_eq_false_iff_ne.mpr ha.next, Bool.and_false]
    rfl

end Harmless

end SyntaxMarkup
