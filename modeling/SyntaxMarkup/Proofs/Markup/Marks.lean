import SyntaxMarkup.Markup.Builder
import Mathlib.Data.List.Basic

namespace SyntaxMarkup

/-- What is met on the way through markup; a unit is told without what is in it. -/
inductive Mark where
  | char (c : Char)
  | start (unit : MarkupUnit)
  | stop

namespace Mark

def char? : Mark → Option Char
  | char c => some c
  | _ => none

def start? : Mark → Option MarkupUnit
  | start unit => some unit
  | _ => none

end Mark

def MarkupUnit.heading (unit : MarkupUnit) : MarkupUnit :=
  { unit with children := [] }

namespace Fragment

mutual

def marks (parent : Option Nat) : Fragment → List Mark
  | .text content => content.toList.map .char
  | .unit id label title node children =>
    .start ⟨id, label, title, node, parent, []⟩ :: marksOf (some id) children ++ [.stop]

def marksOf (parent : Option Nat) : List Fragment → List Mark
  | [] => []
  | fragment :: rest => fragment.marks parent ++ marksOf parent rest

end

theorem marksOf_append (parent : Option Nat) (first rest : List Fragment) :
    marksOf parent (first ++ rest) = marksOf parent first ++ marksOf parent rest := by
  induction first with
  | nil => rfl
  | cons fragment others ih =>
    rw [List.cons_append, marksOf, marksOf, ih, List.append_assoc]

theorem marksOf_singleton (parent : Option Nat) (fragment : Fragment) :
    marksOf parent [fragment] = fragment.marks parent := by
  rw [marksOf, marksOf, List.append_nil]

mutual

theorem start?_marks (parent : Option Nat) :
    ∀ fragment : Fragment,
      (fragment.marks parent).filterMap Mark.start? =
        (fragment.units parent).map MarkupUnit.heading
  | .text content => by
    rw [marks, units, List.filterMap_map]
    exact List.filterMap_eq_nil_iff.mpr fun _ _ => rfl
  | .unit id label title node children => by
    rw [marks, units, List.map_cons, List.cons_append, List.filterMap_cons_some (by rfl),
      List.filterMap_append, start?_marksOf (some id) children]
    simp [Mark.start?, MarkupUnit.heading]

theorem start?_marksOf (parent : Option Nat) :
    ∀ fragments : List Fragment,
      (marksOf parent fragments).filterMap Mark.start? =
        (unitsOf parent fragments).map MarkupUnit.heading
  | [] => rfl
  | fragment :: rest => by
    rw [marksOf, unitsOf, List.filterMap_append, List.map_append, start?_marks parent fragment,
      start?_marksOf parent rest]

end

mutual

theorem char?_marks (parent : Option Nat) :
    ∀ fragment : Fragment,
      (fragment.marks parent).filterMap Mark.char? = fragment.content.toList
  | .text content => by
    rw [marks, Fragment.content, List.filterMap_map]
    exact List.filterMap_some
  | .unit id label title node children => by
    rw [marks, Fragment.content, List.cons_append, List.filterMap_cons_none (by rfl),
      List.filterMap_append, char?_marksOf (some id) children]
    simp [Mark.char?]

theorem char?_marksOf (parent : Option Nat) :
    ∀ fragments : List Fragment,
      (marksOf parent fragments).filterMap Mark.char? = (contents fragments).toList
  | [] => rfl
  | fragment :: rest => by
    rw [marksOf, contents, List.filterMap_append, String.toList_append, char?_marks parent fragment,
      char?_marksOf parent rest]

end

end Fragment

namespace OpenUnit

def marks : List OpenUnit → List Mark
  | [] => []
  | unit :: others =>
    marks others ++
      .start ⟨unit.id, unit.label, unit.title, unit.node, others.head?.map id, []⟩ ::
        Fragment.marksOf (some unit.id) unit.children.reverse

end OpenUnit

namespace Builder

def marks (builder : Builder) : List Mark :=
  Fragment.marksOf none builder.roots.reverse ++ OpenUnit.marks builder.stack

theorem marks_closeAll (inner : Option Fragment) (stack : List OpenUnit) (roots : List Fragment) :
    Fragment.marksOf none (closeAll inner stack roots).reverse =
      Fragment.marksOf none roots.reverse ++ OpenUnit.marks stack ++
        Fragment.marksOf (stack.head?.map OpenUnit.id) inner.toList ++
        List.replicate stack.length .stop := by
  have single : inner.toList.reverse = inner.toList := by cases inner <;> rfl
  induction stack generalizing inner with
  | nil => simp [closeAll, OpenUnit.marks, Fragment.marksOf_append, single]
  | cons unit others ih =>
    rw [closeAll, ih _ rfl]
    simp [OpenUnit.marks, OpenUnit.close, Fragment.marksOf_singleton, Fragment.marks,
      Fragment.marksOf_append, single, List.replicate_succ]

theorem marks_finish (builder : Builder) :
    Fragment.marksOf none builder.finish.roots =
      builder.marks ++ List.replicate builder.stack.length .stop := by
  have hclosed := marks_closeAll none builder.stack builder.roots
  rwa [Option.toList_none, Fragment.marksOf, List.append_nil] at hclosed

/-- The open units by number and node, the innermost first. -/
def frame (builder : Builder) : List (Nat × Option Nat) :=
  builder.stack.map fun unit => (unit.id, unit.node)

theorem marks_openUnit (builder : Builder) (label : String) (title : Option String)
    (node : Option Nat) :
    (builder.openUnit label title node).marks =
      builder.marks ++
        [.start ⟨builder.next, label, title, node, builder.frame.head?.map Prod.fst, []⟩] := by
  simp [openUnit, marks, OpenUnit.marks, Fragment.marksOf, frame, Function.comp_def]

theorem frame_openUnit (builder : Builder) (label : String) (title : Option String)
    (node : Option Nat) :
    (builder.openUnit label title node).frame = (builder.next, node) :: builder.frame :=
  rfl

theorem marks_update {builder : Builder} {change : List Fragment → List Fragment}
    {added : List Mark}
    (h : ∀ parent fragments, builder.frame.head?.map Prod.fst = parent →
      Fragment.marksOf parent (change fragments).reverse =
        Fragment.marksOf parent fragments.reverse ++ added) :
    (builder.update change).marks = builder.marks ++ added := by
  unfold update
  split
  next empty =>
    have outside := h none builder.roots (by simp [frame, empty])
    simp [marks, empty, OpenUnit.marks, outside]
  next unit others open_ =>
    have inside := h (some unit.id) unit.children (by simp [frame, open_])
    simp [marks, open_, OpenUnit.marks, inside]

theorem frame_update (builder : Builder) (change : List Fragment → List Fragment) :
    (builder.update change).frame = builder.frame := by
  unfold update
  split
  next => rfl
  next unit others open_ => simp [frame, open_]

theorem marks_appendText (parent : Option Nat) (text : String) (fragments : List Fragment) :
    Fragment.marksOf parent (appendText text fragments).reverse =
      Fragment.marksOf parent fragments.reverse ++ text.toList.map .char := by
  unfold appendText
  split
  next => simp [Fragment.marksOf_append, Fragment.marksOf_singleton, Fragment.marks]
  next => simp [Fragment.marksOf_append, Fragment.marksOf_singleton, Fragment.marks]

theorem marks_text (builder : Builder) (text : String) :
    (builder.text text).marks = builder.marks ++ text.toList.map .char := by
  unfold Builder.text
  split
  next empty => simp [String.isEmpty_iff.mp empty]
  next => exact marks_update fun parent fragments _ => marks_appendText parent text fragments

theorem frame_text (builder : Builder) (text : String) :
    (builder.text text).frame = builder.frame := by
  unfold Builder.text
  split
  · rfl
  · exact frame_update _ _

theorem marks_close (builder : Builder) :
    builder.close.marks =
      builder.marks ++ if builder.frame.isEmpty then [] else [.stop] := by
  cases empty : builder.stack with
  | nil => simp [close, frame, empty]
  | cons unit others =>
    have open_ : builder.frame.isEmpty = false := by simp [frame, empty]
    have hclosed : ({ builder with stack := others }.update (unit.close :: ·)).marks =
        { builder with stack := others }.marks ++
          unit.close.marks (others.head?.map OpenUnit.id) := by
      refine marks_update fun parent fragments same => ?_
      have same : others.head?.map OpenUnit.id = parent := by
        simpa [frame, Function.comp_def] using same
      rw [List.reverse_cons, Fragment.marksOf_append, Fragment.marksOf_singleton, same]
    rw [close, empty]
    dsimp only
    rw [hclosed]
    simp [marks, open_, empty, OpenUnit.marks, OpenUnit.close, Fragment.marks]

theorem frame_close (builder : Builder) : builder.close.frame = builder.frame.tail := by
  cases empty : builder.stack with
  | nil => simp [close, frame, empty]
  | cons unit others =>
    rw [close, empty]
    dsimp only
    rw [frame_update]
    simp [frame, empty]

theorem next_update (builder : Builder) (change : List Fragment → List Fragment) :
    (builder.update change).next = builder.next := by
  unfold update
  split <;> rfl

theorem next_text (builder : Builder) (text : String) :
    (builder.text text).next = builder.next := by
  unfold Builder.text
  split
  · rfl
  · exact next_update _ _

theorem next_close (builder : Builder) : builder.close.next = builder.next := by
  unfold close
  split
  · rfl
  · exact next_update _ _

def opened (builder : Builder) : List MarkupUnit :=
  builder.marks.filterMap Mark.start?

theorem opened_openUnit (builder : Builder) (label : String) (title : Option String)
    (node : Option Nat) :
    (builder.openUnit label title node).opened =
      builder.opened ++
        [⟨builder.next, label, title, node, builder.frame.head?.map Prod.fst, []⟩] := by
  rw [opened, marks_openUnit, List.filterMap_append]
  rfl

theorem opened_text (builder : Builder) (text : String) :
    (builder.text text).opened = builder.opened := by
  rw [opened, marks_text, List.filterMap_append, List.filterMap_map]
  simp [opened, Function.comp_def, Mark.start?]

theorem opened_close (builder : Builder) : builder.close.opened = builder.opened := by
  rw [opened, marks_close, List.filterMap_append]
  split <;> exact List.append_nil _

theorem share_eq (builder : Builder) (node target : Nat) :
    ∃ nodeUnits, builder.share node target = { builder with nodeUnits } := by
  unfold share
  split
  · exact ⟨_, rfl⟩
  · exact ⟨_, rfl⟩

theorem opened_share (builder : Builder) (node target : Nat) :
    (builder.share node target).opened = builder.opened := by
  obtain ⟨nodeUnits, eq⟩ := builder.share_eq node target
  rw [eq]
  rfl

theorem frame_share (builder : Builder) (node target : Nat) :
    (builder.share node target).frame = builder.frame := by
  obtain ⟨nodeUnits, eq⟩ := builder.share_eq node target
  rw [eq]
  rfl

/-- The units of the finished markup are the ones that were opened. -/
theorem headings_finish (builder : Builder) :
    builder.finish.units.map MarkupUnit.heading = builder.opened := by
  have starts : (List.replicate builder.stack.length Mark.stop).filterMap Mark.start? = [] :=
    List.filterMap_eq_nil_iff.mpr fun mark hm => by rw [List.eq_of_mem_replicate hm]; rfl
  rw [Document.units, ← Fragment.start?_marksOf, marks_finish, List.filterMap_append, starts,
    List.append_nil, opened]

def chars (builder : Builder) : List Char :=
  builder.marks.filterMap Mark.char?

theorem chars_text (builder : Builder) (text : String) :
    (builder.text text).chars = builder.chars ++ text.toList := by
  rw [chars, marks_text, List.filterMap_append, List.filterMap_map]
  exact congrArg _ List.filterMap_some

theorem text_finish (builder : Builder) : builder.finish.text.toList = builder.chars := by
  have stops : (List.replicate builder.stack.length Mark.stop).filterMap Mark.char? = [] :=
    List.filterMap_eq_nil_iff.mpr fun mark hm => by rw [List.eq_of_mem_replicate hm]; rfl
  rw [Document.text, ← Fragment.char?_marksOf none, marks_finish, List.filterMap_append, stops,
    List.append_nil, chars]

section Assignment

theorem unitFor?_openUnit (builder : Builder) (label : String) (title : Option String)
    (node other : Nat) :
    (builder.openUnit label title (some node)).unitFor? other =
      if node = other then some builder.next else builder.unitFor? other := by
  simp [openUnit, unitFor?, Std.TreeMap.getElem?_insert]

theorem nodeUnits_update (builder : Builder) (change : List Fragment → List Fragment) :
    (builder.update change).nodeUnits = builder.nodeUnits := by
  unfold update
  split <;> rfl

theorem nodeUnits_text (builder : Builder) (text : String) :
    (builder.text text).nodeUnits = builder.nodeUnits := by
  unfold Builder.text
  split
  · rfl
  · exact nodeUnits_update _ _

theorem nodeUnits_close (builder : Builder) : builder.close.nodeUnits = builder.nodeUnits := by
  unfold close
  split
  · rfl
  · exact nodeUnits_update _ _

theorem unitFor?_text (builder : Builder) (text : String) (node : Nat) :
    (builder.text text).unitFor? node = builder.unitFor? node := by
  rw [unitFor?, nodeUnits_text, unitFor?]

theorem unitFor?_close (builder : Builder) (node : Nat) :
    builder.close.unitFor? node = builder.unitFor? node := by
  rw [unitFor?, nodeUnits_close, unitFor?]

theorem unitFor?_share (builder : Builder) (node target other : Nat) :
    (builder.share node target).unitFor? other =
      if node = other then (builder.unitFor? target).or (builder.unitFor? other)
      else builder.unitFor? other := by
  unfold share
  cases builder.unitFor? target with
  | none => simp
  | some unit => simp [assign, unitFor?, Std.TreeMap.getElem?_insert]

end Assignment

/-- The units are numbered in the order in which they were opened, and the open ones and those
that show nodes are among them. -/
structure Sound (builder : Builder) : Prop where
  ids : builder.opened.map MarkupUnit.id = List.range builder.next
  frame : ∀ entry ∈ builder.frame, ∃ unit ∈ builder.opened, (unit.id, unit.node) = entry
  shown : ∀ node unit, builder.unitFor? node = some unit → unit < builder.next

theorem sound_empty : ({} : Builder).Sound where
  ids := rfl
  frame := nofun
  shown node unit h := by simp [unitFor?] at h

theorem Sound.openUnit {builder : Builder} (hs : builder.Sound) (label : String)
    (title : Option String) (node : Nat) :
    (builder.openUnit label title (some node)).Sound where
  ids := by
    rw [opened_openUnit, List.map_append, hs.ids]
    exact List.range_succ.symm
  frame := by
    rw [opened_openUnit, frame_openUnit]
    intro entry hm
    rcases List.mem_cons.mp hm with rfl | hm
    · exact ⟨_, List.mem_append_right _ List.mem_cons_self, rfl⟩
    · obtain ⟨unit, hk, eq⟩ := hs.frame entry hm
      exact ⟨unit, List.mem_append_left _ hk, eq⟩
  shown other unit h := by
    rw [unitFor?_openUnit] at h
    split at h
    next =>
      cases h
      exact Nat.lt_succ_self _
    next => exact Nat.lt_succ_of_lt (hs.shown other unit h)

theorem Sound.text {builder : Builder} (hs : builder.Sound) (text : String) :
    (builder.text text).Sound where
  ids := by rw [opened_text, next_text, hs.ids]
  frame := by
    rw [opened_text, frame_text]
    exact hs.frame
  shown node unit h := by
    rw [unitFor?_text] at h
    rw [next_text]
    exact hs.shown node unit h

theorem Sound.close {builder : Builder} (hs : builder.Sound) : builder.close.Sound where
  ids := by rw [opened_close, next_close, hs.ids]
  frame := by
    rw [opened_close, frame_close]
    exact fun entry hm => hs.frame entry (List.mem_of_mem_tail hm)
  shown node unit h := by
    rw [unitFor?_close] at h
    rw [next_close]
    exact hs.shown node unit h

theorem Sound.share {builder : Builder} (hs : builder.Sound) (node target : Nat) :
    (builder.share node target).Sound := by
  have hshown : ∀ other unit, (builder.share node target).unitFor? other = some unit →
      unit < builder.next := by
    intro other unit h
    rw [unitFor?_share] at h
    split at h
    · rcases Option.or_eq_some_iff.mp h with h | ⟨-, h⟩
      · exact hs.shown _ _ h
      · exact hs.shown _ _ h
    · exact hs.shown _ _ h
  obtain ⟨nodeUnits, eq⟩ := builder.share_eq node target
  rw [eq] at hshown ⊢
  exact ⟨hs.ids, hs.frame, hshown⟩

end Builder

end SyntaxMarkup
