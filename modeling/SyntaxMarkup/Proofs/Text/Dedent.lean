import SyntaxMarkup.Proofs.Partial
import SyntaxMarkup.Proofs.Text.Lines
import SyntaxMarkup.Text.Dedent
import Mathlib.Data.List.DropRight
import Mathlib.Data.List.Forall2

namespace SyntaxMarkup

section TrimEnds

variable {α β : Type} {p : α → Bool} {items : List α}

theorem trimEnds_eq_rdropWhile (p : α → Bool) (items : List α) :
    trimEnds p items = (items.dropWhile p).rdropWhile p :=
  rfl

theorem trimEnds_isPrefix (p : α → Bool) (items : List α) :
    trimEnds p items <+: items.dropWhile p :=
  List.rdropWhile_prefix p _

/-- What is left stands between items that go. -/
theorem exists_append_trimEnds (p : α → Bool) (items : List α) :
    ∃ before after, items = before ++ trimEnds p items ++ after ∧
      ∀ item ∈ before ++ after, p item := by
  have ends : trimEnds p items ++ ((items.dropWhile p).reverse.takeWhile p).reverse =
      items.dropWhile p := by
    rw [trimEnds, ← List.reverse_append, List.takeWhile_append_dropWhile, List.reverse_reverse]
  refine ⟨items.takeWhile p, ((items.dropWhile p).reverse.takeWhile p).reverse, ?_, ?_⟩
  · rw [List.append_assoc, ends, List.takeWhile_append_dropWhile]
  · intro item hm
    rcases List.mem_append.mp hm with hm | hm
    · exact List.mem_takeWhile_imp hm
    · exact List.mem_takeWhile_imp (List.mem_reverse.mp hm)

theorem mem_of_mem_trimEnds {item : α} (hm : item ∈ trimEnds p items) : item ∈ items :=
  (List.dropWhile_suffix p).mem ((trimEnds_isPrefix p items).mem hm)

theorem not_of_head?_trimEnds {item : α} (first : (trimEnds p items).head? = some item) :
    p item = false := by
  obtain ⟨rest, all⟩ := trimEnds_isPrefix p items
  obtain ⟨others, hkept⟩ := List.head?_eq_some_iff.mp first
  have stops := List.head?_dropWhile_not p items
  rw [← all, hkept] at stops
  exact stops

theorem not_of_getLast?_trimEnds {item : α} (last : (trimEnds p items).getLast? = some item) :
    p item = false := by
  have stops := List.head?_dropWhile_not p (items.dropWhile p).reverse
  rw [trimEnds, List.getLast?_reverse] at last
  rw [last] at stops
  exact stops

theorem trimEnds_trimEnds (p : α → Bool) (items : List α) :
    trimEnds p (trimEnds p items) = trimEnds p items := by
  have front : (trimEnds p items).dropWhile p = trimEnds p items := by
    cases hkept : trimEnds p items with
    | nil => rfl
    | cons item others =>
      exact List.dropWhile_cons_of_neg (by
        rw [not_of_head?_trimEnds (congrArg List.head? hkept)]
        exact Bool.false_ne_true)
  rw [trimEnds_eq_rdropWhile, front, trimEnds_eq_rdropWhile, List.rdropWhile_idempotent]

theorem dropWhile_map_of_same {p : β → Bool} {q : α → Bool} {f : α → β} {items : List α}
    (same : ∀ item ∈ items, p (f item) = q item) :
    (items.map f).dropWhile p = (items.dropWhile q).map f := by
  induction items with
  | nil => rfl
  | cons item others ih =>
    obtain ⟨here, later⟩ := List.forall_mem_cons.mp same
    rw [List.map_cons, List.dropWhile_cons, List.dropWhile_cons, here, ih later]
    split <;> rfl

theorem trimEnds_map {p : β → Bool} {q : α → Bool} {f : α → β} {items : List α}
    (same : ∀ item ∈ items, p (f item) = q item) :
    trimEnds p (items.map f) = (trimEnds q items).map f := by
  have left : ∀ item ∈ (items.dropWhile q).reverse, p (f item) = q item := fun item hm =>
    same item ((List.dropWhile_suffix q).mem (List.mem_reverse.mp hm))
  rw [trimEnds, dropWhile_map_of_same same, ← List.map_reverse, dropWhile_map_of_same left,
    ← List.map_reverse, trimEnds]

end TrimEnds

namespace Text

variable {indent line : List Char} {amount : Nat}

theorem isBlankLine_append (hi : ∀ c ∈ indent, isIndent c) (line : List Char) :
    isBlankLine (indent ++ line) = isBlankLine line := by
  have blank : indent.all isBlank :=
    List.all_eq_true.mpr fun c hm => isBlank_of_isIndent (hi c hm)
  rw [isBlankLine, List.all_append, blank, Bool.true_and, isBlankLine]

theorem indentation_append (hi : ∀ c ∈ indent, isIndent c) (line : List Char) :
    indentation (indent ++ line) = indent.length + indentation line := by
  rw [indentation, List.takeWhile_append_of_pos hi, List.length_append, indentation]

theorem isIndent_of_mem_take (enough : amount ≤ indentation line) :
    ∀ c ∈ line.take amount, isIndent c := by
  intro c hm
  rw [← List.takeWhile_append_dropWhile (p := isIndent) (l := line),
    List.take_append_of_le_length enough] at hm
  exact List.mem_takeWhile_imp (List.mem_of_mem_take hm)

theorem amount_le_length (enough : amount ≤ indentation line) : amount ≤ line.length :=
  enough.trans (List.takeWhile_prefix isIndent).length_le

theorem isBlankLine_drop (enough : amount ≤ indentation line) :
    isBlankLine (line.drop amount) = isBlankLine line := by
  have whole := isBlankLine_append (isIndent_of_mem_take enough) (line.drop amount)
  rw [List.take_append_drop] at whole
  exact whole.symm

theorem indentation_drop (enough : amount ≤ indentation line) :
    indentation line = amount + indentation (line.drop amount) := by
  have whole := indentation_append (isIndent_of_mem_take enough) (line.drop amount)
  rwa [List.take_append_drop, List.length_take_of_le (amount_le_length enough)] at whole

variable {lines : List (List Char)}

theorem margin_le (hm : line ∈ lines) (content : isBlankLine line = false) :
    margin lines ≤ indentation line := by
  refine List.min?_getD_le_of_mem (List.mem_map_of_mem (List.mem_filter.mpr ⟨hm, ?_⟩))
  rw [content, Bool.not_false]

/-- One of the lines with content has no more indentation than the margin. -/
theorem exists_indentation_eq_margin (hm : line ∈ lines) (content : isBlankLine line = false) :
    ∃ line ∈ lines, isBlankLine line = false ∧ indentation line = margin lines := by
  have hi : indentation line ∈ (lines.filter (!isBlankLine ·)).map indentation :=
    List.mem_map_of_mem (List.mem_filter.mpr ⟨hm, by rw [content, Bool.not_false]⟩)
  unfold margin
  cases least : ((lines.filter (!isBlankLine ·)).map indentation).min? with
  | none => exact absurd (List.min?_eq_none_iff.mp least) (List.ne_nil_of_mem hi)
  | some amount =>
    obtain ⟨line, hm, same⟩ := List.mem_map.mp (List.min?_mem least)
    obtain ⟨hm, content⟩ := List.mem_filter.mp hm
    exact ⟨line, hm, by simpa using content, same⟩

/-- A line without an amount of indentation; nothing is left of a blank line. -/
def cut (amount : Nat) (line : List Char) : List Char :=
  if isBlankLine line then [] else line.drop amount

theorem dedentLines_eq (lines : List (List Char)) :
    dedentLines lines = (trimEnds isBlankLine lines).map
      (cut (margin (trimEnds isBlankLine lines))) :=
  rfl

/-- Whether a line is another one without some of its indentation; blank lines are all the same. -/
structure Outdents (amount : Nat) (line shorter : List Char) : Prop where
  blank : isBlankLine line → isBlankLine shorter
  content : isBlankLine line = false → amount ≤ indentation line ∧ shorter = line.drop amount

namespace Outdents

variable {shorter : List Char}

theorem isBlankLine_eq (ho : Outdents amount line shorter) :
    isBlankLine shorter = isBlankLine line := by
  cases blank : isBlankLine line with
  | true => exact ho.blank blank
  | false =>
    obtain ⟨enough, rfl⟩ := ho.content blank
    rw [isBlankLine_drop enough, blank]

theorem indentation_eq (ho : Outdents amount line shorter)
    (content : isBlankLine line = false) : indentation line = amount + indentation shorter := by
  obtain ⟨enough, rfl⟩ := ho.content content
  exact indentation_drop enough

theorem cut_eq (ho : Outdents amount line shorter) (more : Nat) :
    cut more shorter = cut (amount + more) line := by
  unfold cut
  rw [ho.isBlankLine_eq]
  split
  next => rfl
  next content =>
    obtain ⟨-, rfl⟩ := ho.content (Bool.not_eq_true _ ▸ content)
    rw [List.drop_drop]

end Outdents

theorem outdents_cut (hm : line ∈ lines) :
    Outdents (margin lines) line (cut (margin lines) line) where
  blank blank := by rw [cut, if_pos blank]; rfl
  content content := by
    rw [cut, if_neg (by rw [content]; exact Bool.false_ne_true)]
    exact ⟨margin_le hm content, rfl⟩

/-- The margin shrinks by what is taken from all lines. -/
theorem margin_map {f : List Char → List Char}
    (ho : ∀ line ∈ lines, Outdents amount line (f line)) (hmem : line ∈ lines)
    (content : isBlankLine line = false) : margin lines = amount + margin (lines.map f) := by
  -- each of the two margins is that of some line, and so bounds the other
  apply Nat.le_antisymm
  · have content' : isBlankLine (f line) = false := by
      rw [(ho line hmem).isBlankLine_eq, content]
    obtain ⟨shorter, hmem', content', least⟩ :=
      exists_indentation_eq_margin (List.mem_map_of_mem hmem) content'
    obtain ⟨line, hmem, rfl⟩ := List.mem_map.mp hmem'
    rw [(ho line hmem).isBlankLine_eq] at content'
    rw [← least, ← (ho line hmem).indentation_eq content']
    exact margin_le hmem content'
  · obtain ⟨line, hmem, content, least⟩ := exists_indentation_eq_margin hmem content
    rw [← least, (ho line hmem).indentation_eq content]
    refine Nat.add_le_add_left (margin_le (List.mem_map_of_mem hmem) ?_) amount
    rw [(ho line hmem).isBlankLine_eq, content]

/-- Lines that differ in an indentation that all of them have are dedented to the same. -/
theorem dedentLines_map {f : List Char → List Char}
    (ho : ∀ line ∈ lines, Outdents amount line (f line)) :
    dedentLines (lines.map f) = dedentLines lines := by
  have hkept : ∀ line ∈ trimEnds isBlankLine lines, Outdents amount line (f line) :=
    fun line hm => ho line (mem_of_mem_trimEnds hm)
  rw [dedentLines_eq, dedentLines_eq,
    trimEnds_map fun line hm => (ho line hm).isBlankLine_eq, List.map_map]
  cases some : trimEnds isBlankLine lines with
  | nil => rfl
  | cons first others =>
    rw [some] at hkept
    have content : isBlankLine first = false :=
      not_of_head?_trimEnds (congrArg List.head? some)
    rw [margin_map hkept List.mem_cons_self content]
    exact List.map_congr_left fun line hm => (hkept line hm).cut_eq _

theorem dedentLines_dedentLines (lines : List (List Char)) :
    dedentLines (dedentLines lines) = dedentLines lines := by
  rw [dedentLines_eq lines, dedentLines_map fun line hm => outdents_cut hm, dedentLines_eq,
    trimEnds_trimEnds]

theorem dedentLines_append (hi : ∀ c ∈ indent, isIndent c) (lines : List (List Char)) :
    dedentLines (lines.map (indent ++ ·)) = dedentLines lines := by
  have ho : ∀ line ∈ lines.map (indent ++ ·),
      Outdents indent.length line (line.drop indent.length) := by
    intro line hm
    obtain ⟨line, -, rfl⟩ := List.mem_map.mp hm
    have enough : indent.length ≤ indentation (indent ++ line) := by
      rw [indentation_append hi]
      exact Nat.le_add_right _ _
    exact ⟨fun blank => by rwa [isBlankLine_drop enough], fun _ => ⟨enough, rfl⟩⟩
  rw [← dedentLines_map ho, List.map_map]
  simp [Function.comp_def]

/-- What is left of a line with content has content. -/
theorem isBlankLine_cut (hm : line ∈ lines) :
    isBlankLine (cut (margin lines) line) = isBlankLine line :=
  (outdents_cut hm).isBlankLine_eq

theorem unbroken_cut (hu : Unbroken line) (amount : Nat) : Unbroken (cut amount line) := by
  unfold cut
  split
  · exact nofun
  · exact fun c hm => hu c (List.mem_of_mem_drop hm)

theorem getLast?_dedentLines (lines : List (List Char)) :
    (dedentLines lines).getLast? ≠ some [] := by
  rw [dedentLines_eq, List.getLast?_map]
  intro empty
  obtain ⟨line, last, nothing⟩ := Option.map_eq_some_iff.mp empty
  have blank := isBlankLine_cut (List.mem_of_getLast? last)
  rw [nothing, not_of_getLast?_trimEnds last] at blank
  cases blank

theorem toList_dedent (text : String) :
    (dedent text).toList = ['\n'].intercalate (dedentLines (Text.lines text.toList)) := by
  rw [dedent, String.toList_intercalate, List.map_map]
  congr 1
  exact (List.map_congr_left fun line _ => String.toList_ofList).trans (List.map_id _)

theorem lines_dedent {text : String} (hret : '\r' ∉ text.toList) :
    Text.lines (dedent text).toList = dedentLines (Text.lines text.toList) := by
  rw [toList_dedent]
  refine lines_intercalate (fun line hm => ?_) (getLast?_dedentLines _)
  obtain ⟨original, hk, rfl⟩ := List.mem_map.mp hm
  exact unbroken_cut (unbroken_of_mem_lines hret (mem_of_mem_trimEnds hk)) _

theorem dedent_of_lines {text other : String}
    (same : dedentLines (Text.lines text.toList) = dedentLines (Text.lines other.toList)) :
    dedent text = dedent other := by
  rw [dedent, same, dedent]

theorem unbroken_of_indents (hi : ∀ c ∈ indent, isIndent c) : Unbroken indent := by
  intro c hm
  have hindent := hi c hm
  constructor <;> rintro rfl <;> cases hindent

/-- A text with an indentation before each of its lines. -/
def indented (indent text : String) : String :=
  String.ofList (prefixed indent.toList true text.toList)

theorem dedent_indented {indent text : String} (hi : ∀ c ∈ indent.toList, isIndent c)
    (hret : '\r' ∉ text.toList) : dedent (indented indent text) = dedent text := by
  apply dedent_of_lines
  rw [indented, String.toList_ofList, lines_prefixed (unbroken_of_indents hi) hret,
    dedentLines_append hi]

section Bytes

/-- The rest of a text from a byte on, unless the byte is past the end or within a character. -/
def fromByte? (text : String) (byte : Nat) : Option String :=
  if valid : String.Pos.Raw.IsValid text ⟨byte⟩ then
    some (text.sliceFrom (text.pos ⟨byte⟩ valid)).copy
  else none

theorem fromByte?_append (before rest : String) :
    fromByte? (before ++ rest) before.utf8ByteSize = some rest := by
  have valid : String.Pos.Raw.IsValid (before ++ rest) ⟨before.utf8ByteSize⟩ :=
    String.Pos.Raw.isValid_iff_exists_append.mpr ⟨before, rest, rfl, rfl⟩
  rw [fromByte?, dif_pos valid]
  exact congrArg some String.Pos.splits_append_rawEndPos.copy_sliceFrom_eq

/-- The bytes that a line has more than what stands after its indentation. -/
def indentationBytes (line : List Char) : Nat :=
  (String.ofList line).utf8ByteSize - (String.ofList (line.dropWhile isIndent)).utf8ByteSize

def marginBytes (lines : List (List Char)) : Nat :=
  ((lines.filter (!isBlankLine ·)).map indentationBytes).min?.getD 0

/-- Dedenting by cutting the bytes of the margin from each line with content, which fails where
there is no such place in a line. -/
def dedentBytes? (text : String) : Option String := do
  let kept := trimEnds isBlankLine (Text.lines text.toList)
  let results ← kept.mapM fun line =>
    if isBlankLine line then some "" else fromByte? (String.ofList line) (marginBytes kept)
  return "\n".intercalate results

/-- Spaces and tabs are single bytes. -/
theorem utf8ByteSize_of_indents (hi : ∀ c ∈ indent, isIndent c) :
    (String.ofList indent).utf8ByteSize = indent.length := by
  induction indent with
  | nil => rfl
  | cons c indent ih =>
    obtain ⟨first, others⟩ := List.forall_mem_cons.mp hi
    have single : c.utf8Size = 1 := by
      rcases Bool.or_eq_true_iff.mp first with space | tab
      · rw [beq_iff_eq.mp space]; rfl
      · rw [beq_iff_eq.mp tab]; rfl
    rw [String.ofList_cons, String.utf8ByteSize_append, String.utf8ByteSize_singleton, single,
      ih others, List.length_cons, Nat.add_comm]

theorem indentationBytes_eq (line : List Char) : indentationBytes line = indentation line := by
  have whole : String.ofList line =
      String.ofList (line.takeWhile isIndent) ++ String.ofList (line.dropWhile isIndent) := by
    rw [← String.ofList_append, List.takeWhile_append_dropWhile]
  rw [indentationBytes, whole, String.utf8ByteSize_append, Nat.add_sub_cancel,
    utf8ByteSize_of_indents fun c hm => List.mem_takeWhile_imp hm, indentation]

theorem marginBytes_eq (lines : List (List Char)) : marginBytes lines = margin lines := by
  rw [marginBytes, funext indentationBytes_eq, margin]

theorem fromByte?_of_le (enough : amount ≤ indentation line) :
    fromByte? (String.ofList line) amount = some (String.ofList (line.drop amount)) := by
  have size := utf8ByteSize_of_indents (isIndent_of_mem_take enough)
  rw [List.length_take_of_le (amount_le_length enough)] at size
  have cut := fromByte?_append (String.ofList (line.take amount)) (String.ofList (line.drop amount))
  rwa [← String.ofList_append, List.take_append_drop, size] at cut

theorem cutBytes?_eq (hm : line ∈ lines) :
    (if isBlankLine line then some "" else fromByte? (String.ofList line) (marginBytes lines)) =
      some (String.ofList (cut (margin lines) line)) := by
  rw [marginBytes_eq, cut]
  split
  next => rfl
  next content => exact fromByte?_of_le (margin_le hm (Bool.not_eq_true _ ▸ content))

/-- No cut fails, and what is cut off is the indentation that the dedented text lacks. -/
theorem dedentBytes?_eq (text : String) : dedentBytes? text = some (dedent text) := by
  rw [dedentBytes?, mapM_eq_some_map fun line hm => cutBytes?_eq hm, dedent, dedentLines_eq,
    List.map_map]
  rfl

end Bytes

/-- The lines from the first to the last one with content. -/
structure Inner (lines kept : List (List Char)) : Prop where
  between : ∃ before after, lines = before ++ kept ++ after ∧
    ∀ line ∈ before ++ after, isBlankLine line
  first : ∃ line, kept.head? = some line ∧ isBlankLine line = false
  last : ∃ line, kept.getLast? = some line ∧ isBlankLine line = false

/-- Whether a line without so many bytes of indentation is the other one; nothing is left of a blank
line. -/
def LosesIndent (bytes : Nat) (line result : List Char) : Prop :=
  if isBlankLine line then result = []
  else ∃ indent, line = indent ++ result ∧ (∀ c ∈ indent, isIndent c) ∧
    (String.ofList indent).utf8ByteSize = bytes

theorem trimEnds_ne_nil (hm : line ∈ lines) (content : isBlankLine line = false) :
    trimEnds isBlankLine lines ≠ [] := by
  intro empty
  rw [trimEnds_eq_nil_iff.mp empty line hm] at content
  cases content

theorem inner_trimEnds (some : trimEnds isBlankLine lines ≠ []) :
    Inner lines (trimEnds isBlankLine lines) where
  between := exists_append_trimEnds isBlankLine lines
  first :=
    have hf := List.head?_eq_some_head some
    ⟨_, hf, not_of_head?_trimEnds hf⟩
  last :=
    have hl := List.getLast?_eq_some_getLast some
    ⟨_, hl, not_of_getLast?_trimEnds hl⟩

theorem losesIndent_cut (hm : line ∈ lines) :
    LosesIndent (margin lines) line (cut (margin lines) line) := by
  unfold LosesIndent cut
  split
  next => rfl
  next content =>
    have enough := margin_le hm (Bool.not_eq_true _ ▸ content)
    refine ⟨line.take (margin lines), (List.take_append_drop _ _).symm,
      isIndent_of_mem_take enough, ?_⟩
    rw [utf8ByteSize_of_indents (isIndent_of_mem_take enough),
      List.length_take_of_le (amount_le_length enough)]

/-- A line with the least indentation starts with its content once the margin is cut. -/
theorem exists_unindented (hm : line ∈ lines) (content : isBlankLine line = false) :
    ∃ line ∈ lines, isBlankLine (cut (margin lines) line) = false ∧
      ∀ c ∈ (cut (margin lines) line).head?, isIndent c = false := by
  obtain ⟨line, hm, content, least⟩ := exists_indentation_eq_margin hm content
  refine ⟨line, hm, by rw [isBlankLine_cut hm, content], fun c first => ?_⟩
  have left := indentation_drop (le_of_eq least.symm)
  have none : indentation (line.drop (margin lines)) = 0 := by omega
  rw [cut, if_neg (by rw [content]; exact Bool.false_ne_true)] at first
  obtain ⟨rest, eq⟩ := List.head?_eq_some_iff.mp first
  rw [eq] at none
  by_contra hi
  rw [Bool.not_eq_false] at hi
  rw [indentation, List.takeWhile_cons_of_pos hi] at none
  cases none

/-- Dedenting a text without carriage returns never cuts past the end of a line or within a
character. Nothing is left of blank lines alone. Otherwise there is a line for each of those from
the first to the last one with content, empty for a blank line and for the others without the same
number of bytes, which are spaces and tabs, and one of them starts with neither. Dedenting again
changes nothing, and so does it to put spaces and tabs before all lines. -/
theorem dedent_normal_form {text : String} (noReturn : '\r' ∉ text.toList) :
    dedentBytes? text = some (dedent text) ∧
    ((∀ line ∈ Text.lines text.toList, isBlankLine line) → dedent text = "") ∧
    ((∃ line ∈ Text.lines text.toList, isBlankLine line = false) →
      ∃ kept bytes, Inner (Text.lines text.toList) kept ∧
        List.Forall₂ (LosesIndent bytes) kept (Text.lines (dedent text).toList) ∧
        ∃ line ∈ Text.lines (dedent text).toList, isBlankLine line = false ∧
          ∀ c ∈ line.head?, isIndent c = false) ∧
    dedent (dedent text) = dedent text ∧
    ∀ indent : String, (∀ c ∈ indent.toList, isIndent c) →
      Text.lines (indented indent text).toList =
        (Text.lines text.toList).map (indent.toList ++ ·) ∧
      dedent (indented indent text) = dedent text := by
  have left := lines_dedent noReturn
  refine ⟨dedentBytes?_eq text, fun blank => ?_, fun ⟨line, hm, content⟩ => ?_, ?_,
    fun indent hi => ⟨?_, dedent_indented hi noReturn⟩⟩
  · rw [dedent, dedentLines_eq, trimEnds_eq_nil_iff.mpr blank]
    rfl
  · have inner := inner_trimEnds (trimEnds_ne_nil hm content)
    obtain ⟨first, hf, content⟩ := inner.first
    obtain ⟨line, hm, unindented⟩ := exists_unindented (List.mem_of_head? hf) content
    rw [left, dedentLines_eq]
    refine ⟨_, margin (trimEnds isBlankLine (Text.lines text.toList)), inner, ?_, _,
      List.mem_map_of_mem hm, unindented⟩
    rw [List.forall₂_map_right_iff]
    exact List.forall₂_same.mpr fun line hm => losesIndent_cut hm
  · apply dedent_of_lines
    rw [left, dedentLines_dedentLines]
  · rw [indented, String.toList_ofList]
    exact lines_prefixed (unbroken_of_indents hi) noReturn

/-- Blank lines around and between lines with content, wide white space, and an indentation of a tab
and a space. -/
theorem dedent_normal_form_of_sample :
    let text := "\n\t  f(é)\n\u2003\n\t \u00a0x\n \n"
    '\r' ∉ text.toList ∧ dedent text = " f(é)\n\n\u00a0x" ∧
      dedentBytes? text = some " f(é)\n\n\u00a0x" ∧
      dedent " f(é)\n\n\u00a0x" = " f(é)\n\n\u00a0x" ∧
      dedent (indented " \t" text) = " f(é)\n\n\u00a0x" ∧
      (∃ kept bytes, Inner (Text.lines text.toList) kept ∧
        List.Forall₂ (LosesIndent bytes) kept (Text.lines (dedent text).toList)) ∧
      dedent " \n\u2003\t" = "" := by
  intro text
  have hret : '\r' ∉ text.toList := by decide
  obtain ⟨bytes, -, content, again, deeper⟩ := dedent_normal_form hret
  have value : dedent text = " f(é)\n\n\u00a0x" := by decide +kernel
  have some : ∃ line ∈ Text.lines text.toList, isBlankLine line = false := by decide +kernel
  obtain ⟨kept, margin, inner, each, -⟩ := content some
  obtain ⟨-, blank, -⟩ := dedent_normal_form (by decide : '\r' ∉ " \n\u2003\t".toList)
  have hi : ∀ c ∈ " \t".toList, isIndent c := List.all_eq_true.mp rfl
  rw [value] at bytes again
  exact ⟨hret, value, bytes, again, ((deeper " \t" hi).2).trans value,
    ⟨kept, margin, inner, each⟩, blank (by decide +kernel)⟩

end Text

end SyntaxMarkup
