import SyntaxMarkup.Text.Line
import Mathlib.Data.List.Basic

namespace SyntaxMarkup.Text

/-- Whether a text lies within one line. -/
def Unbroken (text : List Char) : Prop :=
  ∀ c ∈ text, c ≠ '\n' ∧ c ≠ '\r'

theorem lines_newline (rest : List Char) : lines ('\n' :: rest) = [] :: lines rest := by
  rw [lines]

theorem lines_cons {c : Char} (feed : c ≠ '\n') (ret : c ≠ '\r') (rest : List Char) :
    lines (c :: rest) = (c :: (lines rest).headD []) :: (lines rest).tail := by
  rw [lines]
  · cases lines rest <;> rfl
  · exact fun _ same => absurd same ret
  · exact feed

theorem eq_nil_of_lines {text : List Char} (none : lines text = []) : text = [] := by
  unfold lines at none
  split at none
  case h_4 => split at none <;> cases none
  case h_1 => rfl
  all_goals cases none

/-- What is put before a text within its first line comes before that line. -/
theorem lines_append {before : List Char} (hu : Unbroken before) {rest : List Char}
    (nonempty : rest ≠ []) :
    lines (before ++ rest) = (before ++ (lines rest).headD []) :: (lines rest).tail := by
  induction before with
  | nil =>
    cases hf : lines rest with
    | nil => exact absurd (eq_nil_of_lines hf) nonempty
    | cons line others => exact hf
  | cons c before ih =>
    obtain ⟨⟨feed, ret⟩, hu⟩ := List.forall_mem_cons.mp hu
    rw [List.cons_append, lines_cons feed ret, ih hu]
    rfl

theorem lines_append_newline {line : List Char} (hu : Unbroken line) (rest : List Char) :
    lines (line ++ '\n' :: rest) = line :: lines rest := by
  rw [lines_append hu (List.cons_ne_nil _ _), lines_newline, List.headD_cons,
    List.append_nil, List.tail_cons]

theorem lines_of_unbroken {line : List Char} (hu : Unbroken line) (nonempty : line ≠ []) :
    lines line = [line] := by
  induction line with
  | nil => exact absurd rfl nonempty
  | cons c rest ih =>
    obtain ⟨⟨feed, ret⟩, hu⟩ := List.forall_mem_cons.mp hu
    rw [lines_cons feed ret]
    by_cases last : rest = []
    · subst last
      rfl
    · rw [ih hu last, List.headD_cons, List.tail_cons]

theorem unbroken_of_mem_lines {text line : List Char} (hret : '\r' ∉ text)
    (hm : line ∈ lines text) : Unbroken line := by
  induction text generalizing line with
  | nil => exact nomatch hm
  | cons c rest ih =>
    obtain ⟨ret, hret⟩ := not_or.mp (List.mem_cons.not.mp hret)
    have later (line : List Char) (hm : line ∈ lines rest) : Unbroken line := ih hret hm
    by_cases feed : c = '\n'
    · rw [feed, lines_newline] at hm
      rcases List.mem_cons.mp hm with rfl | hm
      · exact nofun
      · exact later line hm
    · rw [lines_cons feed (Ne.symm ret)] at hm
      rcases List.mem_cons.mp hm with rfl | hm
      · refine List.forall_mem_cons.mpr ⟨⟨feed, Ne.symm ret⟩, ?_⟩
        cases hf : lines rest with
        | nil => exact nofun
        | cons first others => exact later first (hf ▸ List.mem_cons_self)
      · exact later line (List.mem_of_mem_tail hm)

/-- Lines are read back from the text that joins them unless the last one is empty, which would
only end the line before it. -/
theorem lines_intercalate {parts : List (List Char)} (hu : ∀ line ∈ parts, Unbroken line)
    (last : parts.getLast? ≠ some []) : lines (['\n'].intercalate parts) = parts := by
  induction parts with
  | nil => rfl
  | cons line others ih =>
    obtain ⟨here, later⟩ := List.forall_mem_cons.mp hu
    cases others with
    | nil =>
      rw [List.intercalate_singleton]
      exact lines_of_unbroken here fun empty => last (by rw [empty]; rfl)
    | cons next rest =>
      rw [List.intercalate_cons_cons, List.append_assoc, List.singleton_append,
        lines_append_newline here, ih later (by rwa [List.getLast?_cons_cons] at last)]

/-- A text with something put before each of its lines; one starts here if the place is fresh. -/
def prefixed (before : List Char) : (fresh : Bool) → List Char → List Char
  | _, [] => []
  | fresh, c :: rest =>
    (if fresh then before else []) ++ c :: prefixed before (c == '\n') rest

/-- The first line is only led by what was put before it if it starts at a fresh place. -/
theorem lines_prefixed_of_cons {before text line : List Char} {others : List (List Char)}
    (hu : Unbroken before) (hret : '\r' ∉ text) (hf : lines text = line :: others)
    (fresh : Bool) : lines (prefixed before fresh text) =
      ((if fresh then before else []) ++ line) :: others.map (before ++ ·) := by
  -- the line that goes on after a character is known from the rest, where the place is not fresh
  induction text generalizing fresh line others with
  | nil => exact nomatch hf
  | cons c rest ih =>
    obtain ⟨ret, hret⟩ := not_or.mp (List.mem_cons.not.mp hret)
    have lead : Unbroken (if fresh then before else []) := by
      cases fresh
      · exact nofun
      · exact hu
    by_cases feed : c = '\n'
    · rw [feed, lines_newline] at hf
      obtain ⟨rfl, rfl⟩ := List.cons.inj hf
      rw [prefixed, feed, lines_append_newline lead, List.append_nil]
      cases later : lines rest with
      | nil =>
        cases eq_nil_of_lines later
        rfl
      | cons next following =>
        rw [beq_self_eq_true, ih hret later true]
        rfl
    · rw [lines_cons feed (Ne.symm ret)] at hf
      obtain ⟨rfl, rfl⟩ := List.cons.inj hf
      rw [prefixed, lines_append lead (List.cons_ne_nil _ _), lines_cons feed (Ne.symm ret),
        beq_eq_false_iff_ne.mpr feed]
      cases later : lines rest with
      | nil =>
        cases eq_nil_of_lines later
        rfl
      | cons next following =>
        rw [ih hret later false]
        rfl

theorem lines_prefixed {before text : List Char} (hu : Unbroken before)
    (hret : '\r' ∉ text) :
    lines (prefixed before true text) = (lines text).map (before ++ ·) := by
  cases hf : lines text with
  | nil =>
    cases eq_nil_of_lines hf
    rfl
  | cons line others => exact lines_prefixed_of_cons hu hret hf true

end SyntaxMarkup.Text
