import SyntaxMarkup.Layout.Rendering
import SyntaxMarkup.Proofs.Markup.Brackets
import SyntaxMarkup.Proofs.Markup.Forest

namespace SyntaxMarkup

/-- The labels of the units whose text is all from the tree. -/
def isLeafLabel (label : String) : Bool :=
  ["Identifier", "PrivateIdentifier", "Literal", "TemplateElement", unknownLabel].contains label

/-- How many units are open from the outermost leaf on, once a unit is opened. -/
def leafDepth (depth : Nat) (label : String) : Nat :=
  if depth = 0 ∧ isLeafLabel label = false then 0 else depth + 1

namespace Mark

/-- The characters met outside of leaves; `depth` units are open from the outermost leaf on. -/
def skeleton : (depth : Nat) → List Mark → List Char
  | _, [] => []
  | depth, .char c :: rest => (if depth = 0 then [c] else []) ++ skeleton depth rest
  | depth, .start unit :: rest => skeleton (leafDepth depth unit.label) rest
  | depth, .stop :: rest => skeleton (depth - 1) rest

/-- The marks before that of a unit, if it is met. -/
def before? (unit : Nat) : List Mark → Option (List Mark)
  | [] => none
  | .start opened :: rest =>
    if opened.id = unit then some [] else (before? unit rest).map (.start opened :: ·)
  | mark :: rest => (before? unit rest).map (mark :: ·)

/-- The marks until `opened` units are closed. -/
def inside : (opened : Nat) → List Mark → List Mark
  | 0, _ => []
  | _ + 1, [] => []
  | opened + 1, .start unit :: rest => .start unit :: inside (opened + 2) rest
  | opened + 1, .stop :: rest => .stop :: inside opened rest
  | opened + 1, .char c :: rest => .char c :: inside (opened + 1) rest

/-- Marks in which each unit that is opened is closed again, and no other one. -/
def Closed (marks : List Mark) : Prop :=
  ∀ opened rest, inside (opened + 1) (marks ++ rest) = marks ++ inside (opened + 1) rest

theorem closed_nil : Closed [] := fun _ _ => rfl

theorem closed_chars (chars : List Char) : Closed (chars.map .char) := by
  intro opened rest
  induction chars with
  | nil => rfl
  | cons c chars ih => exact congrArg (.char c :: ·) ih

theorem Closed.append {first later : List Mark} (hc : Closed first) (hc' : Closed later) :
    Closed (first ++ later) := by
  intro opened rest
  rw [List.append_assoc, hc, hc', List.append_assoc]

theorem Closed.unit {marks : List Mark} (hclosed : Closed marks) (unit : MarkupUnit) :
    Closed (.start unit :: marks ++ [.stop]) := by
  intro opened rest
  have later := hclosed (opened + 1) (.stop :: rest)
  simp only [List.cons_append, List.append_assoc, List.nil_append, inside, later]

/-- Where a unit ends is told from its marks alone. -/
theorem Closed.eq_of_stop {marks marks' rest rest' : List Mark} (hc : Closed marks)
    (hc' : Closed marks') (same : marks ++ .stop :: rest = marks' ++ .stop :: rest') :
    marks = marks' := by
  have both := congrArg (inside 1) same
  rw [hc, hc', inside, inside, inside, inside] at both
  exact List.append_cancel_right both

/-- A unit is met once. -/
theorem eq_of_start {before before' after after' : List Mark} {unit unit' : MarkupUnit}
    (same : before ++ .start unit :: after = before' ++ .start unit' :: after')
    (hd : (((before ++ .start unit :: after).filterMap start?).map MarkupUnit.id).Nodup)
    (number : unit.id = unit'.id) : unit = unit' ∧ after = after' := by
  -- if one of the two came first, the number would be met again after it
  have ha {first between later : List Mark} {one other : MarkupUnit} (number : one.id = other.id)
      (hd : (((first ++ .start one :: (between ++ .start other :: later)).filterMap
        start?).map MarkupUnit.id).Nodup) : False := by
    rw [List.filterMap_append, List.map_append] at hd
    have later := (List.nodup_append.mp hd).2.1
    refine (List.nodup_cons.mp later).1 ?_
    rw [List.filterMap_append, List.map_append]
    exact List.mem_append_right _ (List.mem_cons.mpr (.inl number))
  rcases List.append_eq_append_iff.mp same with ⟨between, rfl, eq⟩ | ⟨between, rfl, eq⟩
  · cases between with
    | nil =>
      obtain ⟨here, later⟩ := List.cons.inj eq
      exact ⟨Mark.start.inj here, later⟩
    | cons mark between =>
      obtain ⟨rfl, rfl⟩ := List.cons.inj eq
      exact (ha number hd).elim
  · cases between with
    | nil =>
      obtain ⟨here, later⟩ := List.cons.inj eq
      exact ⟨(Mark.start.inj here).symm, later.symm⟩
    | cons mark between =>
      obtain ⟨rfl, rfl⟩ := List.cons.inj eq
      rw [same] at hd
      exact (ha number.symm hd).elim

theorem before?_append {before rest : List Mark} {unit : MarkupUnit}
    (new : unit.id ∉ (before.filterMap start?).map MarkupUnit.id) :
    before? unit.id (before ++ .start unit :: rest) = some before := by
  induction before with
  | nil => exact if_pos rfl
  | cons mark before ih =>
    cases mark with
    | start opened =>
      have other : opened.id ≠ unit.id := fun same => new (List.mem_cons.mpr (.inl same.symm))
      have new := ih fun hm => new (List.mem_cons_of_mem _ hm)
      rw [List.cons_append, before?, if_neg other, new]
      rfl
    | char c => exact congrArg (Option.map (.char c :: ·)) (ih new)
    | stop => exact congrArg (Option.map (.stop :: ·)) (ih new)

end Mark

namespace MarkupUnit

/-- What is met on the way through a unit, from its start to its end. -/
def marks (unit : MarkupUnit) : List Mark :=
  .start unit.heading :: Fragment.marksOf (some unit.id) unit.children ++ [.stop]

/-- The text of a unit without that of the leaves in it. -/
def skeleton (unit : MarkupUnit) : List Char :=
  Mark.skeleton 0 unit.marks

end MarkupUnit

/-- The brackets in a unit that are open where another unit starts, or the unit itself; the
innermost comes first. The text of leaves does not count. -/
def Document.bracketsAround? (document : Document) (outer inner : Nat) : Option (List Char) := do
  let unit ← document.unit? outer
  let marks ← Mark.before? inner unit.marks
  Brackets.after? [] (Mark.skeleton 0 marks)

namespace Fragment

mutual

theorem closed_marks (parent : Option Nat) : ∀ fragment : Fragment,
    Mark.Closed (fragment.marks parent)
  | .text content => Mark.closed_chars content.toList
  | .unit id _ _ _ children => (closed_marksOf (some id) children).unit _

theorem closed_marksOf (parent : Option Nat) : ∀ fragments : List Fragment,
    Mark.Closed (marksOf parent fragments)
  | [] => Mark.closed_nil
  | fragment :: others => (closed_marks parent fragment).append (closed_marksOf parent others)

end

mutual

/-- The marks of a unit are a stretch of those of the fragment it is in. -/
theorem infix_marks (parent : Option Nat) : ∀ fragment : Fragment,
    ∀ one ∈ fragment.units parent, one.marks <:+: fragment.marks parent
  | .text _, _, hm => nomatch hm
  | .unit id _ _ _ children, one, hm => by
    rcases List.mem_cons.mp hm with rfl | hm
    · exact List.infix_refl _
    · exact (infix_marksOf (some id) children one hm).trans (List.infix_append [_] _ [_])

theorem infix_marksOf (parent : Option Nat) : ∀ fragments : List Fragment,
    ∀ one ∈ unitsOf parent fragments, one.marks <:+: marksOf parent fragments
  | [], _, hm => nomatch hm
  | fragment :: others, one, hm => by
    rcases List.mem_append.mp hm with here | later
    · exact (infix_marks parent fragment one here).trans (List.prefix_append _ _).isInfix
    · exact (infix_marksOf parent others one later).trans (List.suffix_append _ _).isInfix

end

end Fragment

namespace Document

variable {document : Document}

theorem Numbered.nodup_starts (hn : document.Numbered) :
    (((Fragment.marksOf none document.roots).filterMap Mark.start?).map MarkupUnit.id).Nodup := by
  rw [Fragment.start?_marksOf, List.map_map]
  exact (hn ▸ List.nodup_range : (document.units.map MarkupUnit.id).Nodup)

/-- The marks of a unit are the closed stretch that starts with the number of the unit. -/
theorem Numbered.marks_eq (hn : document.Numbered) {u : Nat} {unit heading : MarkupUnit}
    (hfound : document.unit? u = some unit) (number : heading.id = u)
    {before inside after : List Mark} (hclosed : Mark.Closed inside)
    (marks : Fragment.marksOf none document.roots =
      before ++ .start heading :: (inside ++ .stop :: after)) :
    unit.marks = .start heading :: inside ++ [.stop] := by
  obtain ⟨hk, -⟩ := List.getElem?_eq_some_iff.mp hfound
  obtain ⟨unit', hfound', rfl⟩ := hn.exists_unit hk
  obtain rfl : unit = unit' := Option.some.inj (hfound.symm.trans hfound')
  obtain ⟨before', after', eq⟩ := Fragment.infix_marksOf none _ _ (List.mem_of_getElem? hfound)
  have hd := hn.nodup_starts
  rw [← eq, MarkupUnit.marks] at marks hd
  simp only [List.cons_append, List.append_assoc] at marks hd
  obtain ⟨same, rest⟩ := Mark.eq_of_start marks hd number.symm
  rw [MarkupUnit.marks, same, (Fragment.closed_marksOf _ _).eq_of_stop hclosed rest]

end Document

end SyntaxMarkup
