import SyntaxMarkup.Proofs.Markup.Forest
import SyntaxMarkup.Text.Blank

namespace SyntaxMarkup

/-- What stands in a unit: a character of its own, or another unit. -/
inductive Item where
  | char (c : Char)
  | inner (id : Nat)
  deriving DecidableEq

namespace Item

def isBlank : Item → Bool
  | char c => Text.isBlank c
  | inner _ => false

/-- What a section between commas tells of: nothing or one unit, with or without parentheses. -/
def slot? (part : List Item) : Option (Option Nat) :=
  match part.filter (!·.isBlank) with
  | [] => some none
  | [.inner id] => some (some id)
  | [.char '(', .inner id, .char ')'] => some (some id)
  | _ => none

/-- The sections between the commas of an array; a blank one at the end does not count. -/
def sections (items : List Item) : List (List Item) :=
  let parts := items.splitOn (.char ',')
  if parts.getLast?.any (·.all isBlank) then parts.dropLast else parts

/-- The slots of an array in square brackets, with a hole for each blank section. -/
def slots? : List Item → Option (List (Option Nat))
  | .char '[' :: rest =>
    if rest.getLast? = some (.char ']') then (sections rest.dropLast).mapM slot? else none
  | _ => none

/-- A section that tells of a slot, and is not blank unless the slot is a hole. -/
structure Tells (part : List Item) (slot : Option Nat) : Prop where
  read : slot? part = some slot
  blank : part.all isBlank = slot.isNone
  unbroken : .char ',' ∉ part

theorem Tells.space {part : List Item} {slot : Option Nat} (ht : Tells part slot) :
    Tells (.char ' ' :: part) slot where
  read := by
    rw [slot?, List.filter_cons_of_neg (by decide)]
    exact ht.read
  blank := ht.blank
  unbroken := by simpa using ht.unbroken

theorem tells_hole : Tells [] none := ⟨rfl, rfl, List.not_mem_nil⟩

theorem tells_inner (id : Nat) : Tells [.inner id] (some id) :=
  ⟨rfl, rfl, by simp⟩

theorem tells_parentheses (id : Nat) : Tells [.char '(', .inner id, .char ')'] (some id) := by
  refine ⟨?_, rfl, by simp⟩
  rw [slot?, List.filter_cons_of_pos (by decide), List.filter_cons_of_pos rfl,
    List.filter_cons_of_pos (by decide), List.filter_nil]
  rfl

/-- Parts with a space before each but the first. -/
def spaced : List (List Item) → List (List Item)
  | [] => []
  | first :: rest => first :: rest.map (.char ' ' :: ·)

theorem intercalate_spaced (parts : List (List Item)) :
    [.char ',', .char ' '].intercalate parts = [.char ','].intercalate (spaced parts) := by
  cases parts with
  | nil => rfl
  | cons first rest =>
    induction rest generalizing first with
    | nil => rfl
    | cons next rest ih =>
      rw [List.intercalate_cons_cons, ih, spaced, spaced, List.map_cons,
        List.intercalate_cons_cons, List.intercalate_cons_cons_left, List.append_assoc,
        List.append_assoc]
      rfl

variable {parts : List (List Item)} {slots : List (Option Nat)}

theorem tells_spaced (tell : List.Forall₂ Tells parts slots) :
    List.Forall₂ Tells (spaced parts) slots := by
  cases tell with
  | nil => exact .nil
  | cons first rest =>
    exact .cons first (List.forall₂_map_left_iff.mpr (rest.imp fun _ _ ht => ht.space))

theorem mapM_slot? (tell : List.Forall₂ Tells parts slots) : parts.mapM slot? = some slots := by
  induction tell with
  | nil => rfl
  | cons first _ ih => rw [List.mapM_cons, first.read, ih]; rfl

/-- The line of the slots of an array: a hole at the end has a comma of its own. -/
def arrayLine (parts : List (List Item)) (slots : List (Option Nat)) : List Item :=
  [.char ',', .char ' '].intercalate parts ++
    if slots.getLast?.any Option.isNone then [.char ','] else []

theorem intercalate_concat_nil (nonempty : parts ≠ []) (separator : Item) :
    [separator].intercalate (parts ++ [[]]) = [separator].intercalate parts ++ [separator] := by
  induction parts with
  | nil => exact absurd rfl nonempty
  | cons first rest ih =>
    cases rest with
    | nil => simp [List.intercalate]
    | cons next rest =>
      rw [List.cons_append, List.cons_append, List.intercalate_cons_cons,
        List.intercalate_cons_cons, ← List.cons_append, ih (List.cons_ne_nil _ _),
        List.append_assoc, List.append_assoc, List.append_assoc]

theorem unbroken_of_tells (tell : List.Forall₂ Tells parts slots) :
    ∀ part ∈ parts, .char ',' ∉ part := by
  induction tell with
  | nil => exact fun _ hm => nomatch hm
  | cons first _ ih => exact List.forall_mem_cons.mpr ⟨first.unbroken, ih⟩

theorem exists_last_of_tells {before : List (Option Nat)} {last : Option Nat}
    (tell : List.Forall₂ Tells parts (before ++ [last])) :
    ∃ part, parts.getLast? = some part ∧ Tells part last := by
  have reversed := List.forall₂_reverse_iff.mpr tell
  rw [List.reverse_append, List.reverse_singleton, List.singleton_append,
    List.forall₂_cons_right_iff] at reversed
  obtain ⟨part, rest, ht, -, eq⟩ := reversed
  exact ⟨part, by rw [List.getLast?_eq_head?_reverse, eq, List.head?_cons], ht⟩

/-- A comma after the last section shows only where a hole ends the array. -/
theorem sections_arrayLine (tell : List.Forall₂ Tells parts slots) :
    sections (arrayLine parts slots) = spaced parts := by
  have told := tells_spaced tell
  rw [arrayLine, intercalate_spaced]
  generalize spaced parts = parts at told
  cases slots using List.reverseRecOn with
  | nil =>
    cases told
    rfl
  | append_singleton before last =>
    obtain ⟨part, hf, ht⟩ := exists_last_of_tells told
    have nonempty : parts ≠ [] := by
      rintro rfl
      cases hf
    rw [List.getLast?_concat, sections]
    cases last with
    | some id =>
      have split := List.splitOn_intercalate (.char ',') (unbroken_of_tells told) nonempty
      have hfilled : part.all isBlank = false := ht.blank
      simp [split, hf, hfilled]
    | none =>
      have hu : ∀ part ∈ parts ++ [[]], Item.char ',' ∉ part :=
        List.forall_mem_append.mpr ⟨unbroken_of_tells told, by simp⟩
      have split := List.splitOn_intercalate (Item.char ',') hu (by simp)
      rw [intercalate_concat_nil nonempty] at split
      simp [split]

/-- The slots of an array are read back from its line. -/
theorem slots?_arrayLine (tell : List.Forall₂ Tells parts slots) :
    slots? (.char '[' :: (arrayLine parts slots ++ [.char ']'])) = some slots := by
  rw [slots?, if_pos List.getLast?_concat, List.dropLast_concat, sections_arrayLine tell]
  exact mapM_slot? (tells_spaced tell)

example : slots? [.char '[', .char ',', .char ']'] = some [none] := by decide

example : slots? [.char '[', .inner 0, .char ',', .char ']'] = some [some 0] := by decide

end Item

/-- What stands in a unit that holds fragments. -/
def Fragment.items (fragments : List Fragment) : List Item :=
  fragments.flatMap fun
    | .text content => content.toList.map .char
    | .unit id _ _ _ _ => [.inner id]

namespace Mark

/-- What is met outside of the units among marks, with the units themselves; `depth` of them are
open. -/
def items : (depth : Nat) → List Mark → List Item
  | _, [] => []
  | depth, .char c :: rest => (if depth = 0 then [.char c] else []) ++ items depth rest
  | depth, .start unit :: rest =>
    (if depth = 0 then [.inner unit.id] else []) ++ items (depth + 1) rest
  | depth, .stop :: rest => items (depth - 1) rest

theorem items_chars (depth : Nat) (chars : List Char) (rest : List Mark) :
    items depth (chars.map .char ++ rest) =
      (if depth = 0 then chars.map .char else []) ++ items depth rest := by
  induction chars with
  | nil => simp
  | cons c chars ih =>
    rw [List.map_cons, List.cons_append, items, ih]
    split <;> rfl

end Mark

namespace Fragment

mutual

theorem items_marks_inside (depth : Nat) (parent : Option Nat) (rest : List Mark) :
    ∀ fragment : Fragment,
      Mark.items (depth + 1) (fragment.marks parent ++ rest) = Mark.items (depth + 1) rest
  | .text content => Mark.items_chars (depth + 1) content.toList rest
  | .unit id _ _ _ children => by
    rw [marks, List.cons_append, List.cons_append, List.append_assoc, Mark.items,
      items_marksOf_inside (depth + 1)]
    rfl

/-- Inside of a unit nothing is met outside of it. -/
theorem items_marksOf_inside (depth : Nat) (parent : Option Nat) (rest : List Mark) :
    ∀ fragments : List Fragment,
      Mark.items (depth + 1) (marksOf parent fragments ++ rest) = Mark.items (depth + 1) rest
  | [] => rfl
  | fragment :: others => by
    rw [marksOf, List.append_assoc, items_marks_inside, items_marksOf_inside]

end

theorem items_marksOf (parent : Option Nat) (fragments : List Fragment) :
    Mark.items 0 (marksOf parent fragments) = items fragments := by
  induction fragments with
  | nil => rfl
  | cons fragment others ih =>
    rw [marksOf, items, List.flatMap_cons, ← items, ← ih]
    cases fragment with
    | text content => exact Mark.items_chars 0 content.toList _
    | unit id label title node children =>
      rw [marks, List.cons_append, List.cons_append, List.append_assoc, Mark.items,
        items_marksOf_inside]
      rfl

end Fragment

/-- What is met at the start of a unit tells which node it has. -/
theorem Document.Numbered.nodeFor?_of_start {document : Document} (hn : document.Numbered)
    {heading : MarkupUnit} (met : .start heading ∈ Fragment.marksOf none document.roots) :
    document.nodeFor? heading.id = heading.node := by
  have starts : heading ∈ (Fragment.marksOf none document.roots).filterMap Mark.start? :=
    List.mem_filterMap.mpr ⟨_, met, rfl⟩
  rw [Fragment.start?_marksOf] at starts
  obtain ⟨unit, hu, rfl⟩ := List.mem_map.mp starts
  have hf : unit ∈ document.units.filter (·.id = unit.id) :=
    List.mem_filter.mpr ⟨hu, by simp⟩
  rw [hn.filter_units] at hf
  have hk : document.unit? unit.id = some unit := Option.mem_toList.mp hf
  rw [MarkupUnit.heading, nodeFor?, hk, Option.bind_some]

end SyntaxMarkup
