import SyntaxMarkup.Proofs.Breadcrumb.Trail
import Mathlib.Algebra.Group.Nat.Even
import Mathlib.Data.List.Induction

namespace SyntaxMarkup

namespace Css

def isLineEnd (c : Char) : Bool :=
  c == '\n' || c == '\r' || c == '\u000c'

/-- The content of a string up to the quote at the end of the text, which is the only one that ends
it. A backslash makes the next character literal, and a line does not end within a string. -/
def content? : (escaped : Bool) → List Char → Option (List Char)
  | _, [] => none
  | true, c :: rest => (content? false rest).map (c :: ·)
  | false, c :: rest =>
    if c = '\\' then content? true rest
    else if c = '\'' then if rest = [] then some [] else none
    else if isLineEnd c then none
    else (content? false rest).map (c :: ·)

/-- The content of a text that is one string in single quotes and nothing else. -/
def string? : List Char → Option (List Char)
  | '\'' :: rest => content? false rest
  | _ => none

/-- Whether a character is escaped after a text. -/
def escapes (escaped : Bool) (text : List Char) : Bool :=
  text.foldl (fun escaped c => !escaped && c == '\\') escaped

/-- The number of backslashes at the end of a text. -/
def trailing (text : List Char) : Nat :=
  (text.reverse.takeWhile (· == '\\')).length

theorem escapes_concat (escaped : Bool) (text : List Char) (c : Char) :
    escapes escaped (text ++ [c]) = (!escapes escaped text && c == '\\') := by
  rw [escapes, List.foldl_append, List.foldl_cons, List.foldl_nil, escapes]

theorem trailing_concat (text : List Char) (c : Char) :
    trailing (text ++ [c]) = if c = '\\' then trailing text + 1 else 0 := by
  rw [trailing, List.reverse_concat, List.takeWhile_cons]
  by_cases backslash : c = '\\' <;> simp [backslash, trailing]

/-- Of several backslashes in a row every second one is escaped by the one before it. -/
theorem escapes_iff (text : List Char) : escapes false text = true ↔ ¬Even (trailing text) := by
  induction text using List.reverseRecOn with
  | nil => simp [escapes, trailing]
  | append_singleton text c ih =>
    rw [escapes_concat, trailing_concat]
    by_cases backslash : c = '\\'
    · rw [if_pos backslash, Nat.even_add_one]
      simp [backslash, ← ih]
    · simp [backslash]

end Css

namespace Breadcrumb

/-- The separator with a backslash before each quote. -/
def quotedText (separator : List Char) : List Char :=
  separator.flatMap fun c => if c == '\'' then ['\\', '\''] else [c]

/-- What a page makes of a separator with a backslash before each quote: a backslash goes with the
character after it, and nothing is read if that is none or the backslash of a quote. -/
def meant? : (escaped : Bool) → List Char → Option (List Char)
  | escaped, [] => if escaped then none else some []
  | true, c :: rest => if c = '\'' then none else (meant? false rest).map (c :: ·)
  | false, c :: rest =>
    if c = '\\' then meant? true rest
    else if Css.isLineEnd c then none
    else (meant? false rest).map (c :: ·)

theorem string?_divider (separator : String) :
    Css.string? (divider separator).toList =
      Css.content? false (quotedText separator.toList ++ ['\'']) := by
  have mark : "'".toList = ['\''] := rfl
  rw [divider, String.toList_append, String.toList_append, mark, String.toList_ofList,
    List.append_assoc, List.singleton_append, Css.string?, quotedText]

theorem content?_quotedText (escaped : Bool) (separator : List Char) :
    Css.content? escaped (quotedText separator ++ ['\'']) = meant? escaped separator := by
  induction separator generalizing escaped with
  | nil => cases escaped <;> rfl
  | cons c rest ih =>
    by_cases quote : c = '\''
    · subst quote
      have escape : quotedText ('\'' :: rest) = '\\' :: '\'' :: quotedText rest := rfl
      rw [escape, List.cons_append, List.cons_append]
      cases escaped with
      | false =>
        rw [Css.content?, if_pos rfl, Css.content?, ih]
        rfl
      | true =>
        -- the backslash of the quote is literal, so the quote is a second one that ends the string
        have more : quotedText rest ++ ['\''] ≠ [] := by simp
        rw [Css.content?, Css.content?, if_neg (by decide), if_pos rfl, if_neg more, meant?,
          if_pos rfl, Option.map_none]
    · have plain : quotedText (c :: rest) = c :: quotedText rest := by
        rw [quotedText, List.flatMap_cons, if_neg (by simpa using quote)]
        rfl
      rw [plain, List.cons_append]
      cases escaped with
      | false =>
        rw [Css.content?, if_neg quote, meant?, ih, ih]
      | true => rw [Css.content?, meant?, if_neg quote, ih]

theorem length_le_of_meant? {escaped : Bool} {separator content : List Char}
    (hr : meant? escaped separator = some content) : content.length ≤ separator.length := by
  induction separator generalizing escaped content with
  | nil =>
    cases escaped <;> cases hr
    exact Nat.le_refl 0
  | cons c rest ih =>
    have hkept (hr : (meant? false rest).map (c :: ·) = some content) :
        content.length ≤ (c :: rest).length := by
      obtain ⟨later, others, rfl⟩ := Option.map_eq_some_iff.mp hr
      exact Nat.succ_le_succ (ih others)
    cases escaped with
    | true =>
      rw [meant?] at hr
      split at hr
      · cases hr
      · exact hkept hr
    | false =>
      rw [meant?] at hr
      split at hr
      · exact Nat.le_succ_of_le (ih hr)
      · split at hr
        · cases hr
        · exact hkept hr

/-- A separator means itself exactly if nothing in it needs more than a backslash before its
quotes. -/
theorem meant?_eq_self_iff (separator : List Char) :
    meant? false separator = some separator ↔
      ∀ c ∈ separator, c ≠ '\\' ∧ Css.isLineEnd c = false := by
  induction separator with
  | nil => simp [meant?]
  | cons c rest ih =>
    rw [List.forall_mem_cons, meant?, ← ih]
    split
    next backslash =>
      -- the backslash is dropped, so what is read is too short
      exact iff_of_false (fun hr => Nat.not_succ_le_self _ (length_le_of_meant? hr))
        fun plain => plain.1.1 backslash
    next other =>
      split
      next ends => simp [ends]
      next inside => simp [other, inside]

/-- Whether no quote of a text and no end of it is escaped. -/
def Closed (escaped : Bool) (text : List Char) : Prop :=
  ∀ before after, text = before ++ after → (∀ c ∈ after.head?, c = '\'') →
    Css.escapes escaped before = false

theorem closed_nil {escaped : Bool} : Closed escaped [] ↔ escaped = false := by
  constructor
  · intro hclosed
    exact hclosed [] [] rfl nofun
  · rintro rfl before after cut -
    rw [(List.append_eq_nil_iff.mp cut.symm).1]
    rfl

theorem closed_cons {escaped : Bool} {c : Char} {rest : List Char} :
    Closed escaped (c :: rest) ↔
      (c = '\'' → escaped = false) ∧ Closed (!escaped && c == '\\') rest := by
  constructor
  · intro hclosed
    refine ⟨fun quote => hclosed [] (c :: rest) rfl fun d first => ?_,
      fun before after cut next => ?_⟩
    · cases first
      exact quote
    · exact hclosed (c :: before) after (by rw [cut, List.cons_append]) next
  · rintro ⟨here, later⟩ before after cut next
    cases before with
    | nil =>
      rw [List.nil_append] at cut
      subst cut
      exact here (next c rfl)
    | cons d before =>
      obtain ⟨rfl, others⟩ := List.cons.inj cut
      exact later before after others next

theorem isSome_meant?_cons {escaped : Bool} {c : Char} {rest : List Char}
    (inside : Css.isLineEnd c = false) :
    (meant? escaped (c :: rest)).isSome ↔
      (c = '\'' → escaped = false) ∧ (meant? (!escaped && c == '\\') rest).isSome := by
  cases escaped with
  | false =>
    by_cases backslash : c = '\\'
    · simp [meant?, backslash]
    · have other : (c == '\\') = false := beq_eq_false_iff_ne.mpr backslash
      simp [meant?, backslash, inside, other]
  | true =>
    by_cases quote : c = '\'' <;> simp [meant?, quote]

/-- A separator is read as some string exactly if no quote in it is escaped, and neither is what
comes after it. -/
theorem isSome_meant? {escaped : Bool} {separator : List Char}
    (hu : ∀ c ∈ separator, Css.isLineEnd c = false) :
    (meant? escaped separator).isSome ↔ Closed escaped separator := by
  induction separator generalizing escaped with
  | nil =>
    rw [closed_nil]
    cases escaped <;> simp [meant?]
  | cons c rest ih =>
    obtain ⟨inside, hu⟩ := List.forall_mem_cons.mp hu
    rw [isSome_meant?_cons inside, closed_cons, ih hu]

/-- The style of a breadcrumb is the property with a text after it that a page takes for the string
of the separator exactly if the separator has no backslash and no line end. A separator in one line
gives one complete string exactly if the backslashes right before each quote in it, and those at its
end, are even in number: otherwise the string ends early or stays open. -/
theorem style_means_separator_iff (breadcrumb : Breadcrumb) :
    let separator := breadcrumb.separator.toList
    ∃ value : String,
      Html.shownValues "style" breadcrumb.html = ["--breadcrumb-divider: " ++ value] ∧
      (Css.string? value.toList = some separator ↔
        ∀ c ∈ separator, c ≠ '\\' ∧ Css.isLineEnd c = false) ∧
      ((∀ c ∈ separator, Css.isLineEnd c = false) →
        ((Css.string? value.toList).isSome ↔
          ∀ before after, separator = before ++ after → (∀ c ∈ after.head?, c = '\'') →
            Even (Css.trailing before))) := by
  intro separator
  have hr : Css.string? (divider breadcrumb.separator).toList = meant? false separator :=
    (string?_divider _).trans (content?_quotedText _ _)
  refine ⟨divider breadcrumb.separator, shownValues_style breadcrumb, ?_, fun hu => ?_⟩
  · rw [hr]
    exact meant?_eq_self_iff separator
  · rw [hr, isSome_meant? hu]
    refine forall₄_congr fun before after _ _ => ?_
    rw [← Bool.not_eq_true, Css.escapes_iff, not_not]

theorem separator_ofAttributes (value : Option String) {separator : String}
    (nonempty : separator.isEmpty = false) :
    (ofAttributes value (some separator)).separator = separator := by
  rw [ofAttributes, Option.filter_some_pos (by simpa using nonempty), Option.getD_some]

/-- Quotes alone do no harm, and two backslashes before a quote leave the string complete. -/
theorem style_means_separator_of_quoteSample :
    let breadcrumb := ofAttributes none (some "it's \"")
    let doubled := ofAttributes none (some "\\\\'")
    (∃ value : String,
      Html.shownValues "style" breadcrumb.html = ["--breadcrumb-divider: " ++ value] ∧
        Css.string? value.toList = some "it's \"".toList) ∧
      (∀ c ∈ doubled.separator.toList, Css.isLineEnd c = false) ∧
      ∃ value : String,
        Html.shownValues "style" doubled.html = ["--breadcrumb-divider: " ++ value] ∧
          ((Css.string? value.toList).isSome ↔
            ∀ before after, doubled.separator.toList = before ++ after →
              (∀ c ∈ after.head?, c = '\'') → Even (Css.trailing before)) := by
  intro breadcrumb doubled
  have hn : breadcrumb.separator = "it's \"" := separator_ofAttributes none (by decide)
  have plain : ∀ c ∈ "it's \"".toList, c ≠ '\\' ∧ Css.isLineEnd c = false := by
    simp [Css.isLineEnd]
  have hu : ∀ c ∈ doubled.separator.toList, Css.isLineEnd c = false := by
    rw [separator_ofAttributes none (by decide)]
    simp [Css.isLineEnd]
  obtain ⟨value, style, reads, -⟩ := style_means_separator_iff breadcrumb
  rw [hn] at reads
  obtain ⟨value', style', -, hcom⟩ := style_means_separator_iff doubled
  exact ⟨⟨value, style, reads.mpr plain⟩, hu, value', style', hcom hu⟩

/-- A backslash alone escapes the quote that should end the string. -/
theorem style_left_open_by_backslash :
    let breadcrumb := ofAttributes none (some "\\")
    breadcrumb.separator = "\\" ∧ (∀ c ∈ "\\".toList, Css.isLineEnd c = false) ∧
      Html.shownValues "style" breadcrumb.html = ["--breadcrumb-divider: '\\'"] ∧
      Css.string? "'\\'".toList = none ∧
      ∀ value, Html.shownValues "style" breadcrumb.html = ["--breadcrumb-divider: " ++ value] →
        Css.string? value.toList ≠ some breadcrumb.separator.toList := by
  intro breadcrumb
  have hn : breadcrumb.separator = "\\" := separator_ofAttributes none (by decide)
  have style : Html.shownValues "style" breadcrumb.html = ["--breadcrumb-divider: '\\'"] := by
    rw [shownValues_style, hn]
    rfl
  have leftOpen : Css.string? "'\\'".toList = none := by decide +kernel
  refine ⟨hn, List.forall_mem_singleton.mpr rfl, style, leftOpen, fun value same => ?_⟩
  have text : "--breadcrumb-divider: " ++ "'\\'" = "--breadcrumb-divider: " ++ value :=
    (List.singleton_inj.mp (style.symm.trans same))
  rw [← (String.append_right_inj _).mp text, leftOpen]
  exact (Option.some_ne_none _).symm

end Breadcrumb

end SyntaxMarkup
