namespace SyntaxMarkup

/-- The items that are left when those satisfying `p` go from both ends. -/
def trimEnds {α : Type} (p : α → Bool) (items : List α) : List α :=
  ((items.dropWhile p).reverse.dropWhile p).reverse

theorem dropWhile_eq_nil_iff {α : Type} {p : α → Bool} {items : List α} :
    items.dropWhile p = [] ↔ ∀ item ∈ items, p item := by
  induction items with
  | nil => simp
  | cons item rest ih => cases h : p item <;> simp [h, ih]

theorem trimEnds_eq_nil_iff {α : Type} {p : α → Bool} {items : List α} :
    trimEnds p items = [] ↔ ∀ item ∈ items, p item := by
  rw [trimEnds, List.reverse_eq_nil_iff, dropWhile_eq_nil_iff]
  induction items with
  | nil => simp
  | cons item rest ih => cases h : p item <;> simp_all

namespace Text

/-- The characters with the Unicode property `White_Space`. -/
def isBlank (c : Char) : Bool :=
  ('\t' ≤ c && c ≤ '\r') || c == ' ' || c == '\u0085' || c == '\u00a0' || c == '\u1680' ||
    ('\u2000' ≤ c && c ≤ '\u200a') || c == '\u2028' || c == '\u2029' || c == '\u202f' ||
    c == '\u205f' || c == '\u3000'

def trim (text : String) : String :=
  String.ofList (trimEnds isBlank text.toList)

def isBlankText (text : String) : Bool :=
  text.toList.all isBlank

end Text

end SyntaxMarkup
