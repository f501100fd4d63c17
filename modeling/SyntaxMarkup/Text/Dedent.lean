import SyntaxMarkup.Text.Blank
import SyntaxMarkup.Text.Line

namespace SyntaxMarkup.Text

def isIndent (c : Char) : Bool :=
  c == ' ' || c == '\t'

theorem isBlank_of_isIndent {c : Char} (h : isIndent c) : isBlank c := by
  simp only [isIndent, Bool.or_eq_true, beq_iff_eq] at h
  rcases h with rfl | rfl <;> decide

def isBlankLine (line : List Char) : Bool :=
  line.all isBlank

def indentation (line : List Char) : Nat :=
  (line.takeWhile isIndent).length

def margin (lines : List (List Char)) : Nat :=
  ((lines.filter (!isBlankLine ·)).map indentation).min?.getD 0

/-- Blank lines at the ends go, the others lose their white space, and every line with content
loses the margin. -/
def dedentLines (lines : List (List Char)) : List (List Char) :=
  let kept := trimEnds isBlankLine lines
  kept.map fun line => if isBlankLine line then [] else line.drop (margin kept)

def dedent (text : String) : String :=
  "\n".intercalate ((dedentLines (lines text.toList)).map String.ofList)

end SyntaxMarkup.Text
