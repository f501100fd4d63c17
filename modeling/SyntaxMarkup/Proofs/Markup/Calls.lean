import SyntaxMarkup.Proofs.Markup.Marks
import Mathlib.Data.List.Chain

namespace SyntaxMarkup

inductive MarkupCall where
  | openUnit (label : String) (title : Option String) (node : Option Nat)
  | text (content : String)
  | close
  /-- Lets a unit show a node; no unit of that number has to be there. -/
  | assign (node unit : Nat)

namespace Fragment

def isText : Fragment → Bool
  | .text _ => true
  | .unit _ _ _ _ _ => false

def Apart (fragments : List Fragment) : Prop :=
  fragments.IsChain fun first second => first.isText = false ∨ second.isText = false

mutual

/-- No text in the fragment is empty or next to other text. -/
def Tidy : Fragment → Prop
  | .text content => content ≠ ""
  | .unit _ _ _ _ children => AllTidy children ∧ Apart children

def AllTidy : List Fragment → Prop
  | [] => True
  | fragment :: rest => fragment.Tidy ∧ AllTidy rest

end

theorem allTidy_iff {fragments : List Fragment} :
    AllTidy fragments ↔ ∀ fragment ∈ fragments, fragment.Tidy := by
  induction fragments with
  | nil => simp [AllTidy]
  | cons fragment rest ih => simp [AllTidy, ih]

/-- Whether text is told apart in a list of fragments and inside them. -/
structure Merged (fragments : List Fragment) : Prop where
  tidy : ∀ fragment ∈ fragments, fragment.Tidy
  apart : Apart fragments

namespace Merged

variable {fragments : List Fragment}

theorem nil : Merged [] :=
  ⟨nofun, .nil⟩

theorem cons_unit (hm : Merged fragments) {unit : Fragment} (ht : unit.Tidy)
    (htext : unit.isText = false) : Merged (unit :: fragments) :=
  ⟨List.forall_mem_cons.mpr ⟨ht, hm.tidy⟩,
    List.isChain_cons.mpr ⟨fun _ _ => .inl htext, hm.apart⟩⟩

theorem reverse (hmerged : Merged fragments) : Merged fragments.reverse :=
  ⟨fun fragment hm => hmerged.tidy fragment (List.mem_reverse.mp hm),
    List.isChain_reverse.mpr (hmerged.apart.imp fun _ _ ha => ha.symm)⟩

/-- Text goes on the text before it, so it is never next to that. -/
theorem appendText (hm : Merged fragments) {text : String} (nonempty : text ≠ "") :
    Merged (Builder.appendText text fragments) := by
  obtain ⟨ht, ha⟩ := hm
  unfold Builder.appendText
  split
  next before rest =>
    obtain ⟨-, others⟩ := List.forall_mem_cons.mp ht
    obtain ⟨first, later⟩ := List.isChain_cons.mp ha
    refine ⟨List.forall_mem_cons.mpr ⟨?_, others⟩, List.isChain_cons.mpr ⟨first, later⟩⟩
    exact fun empty => nonempty (String.append_eq_empty_iff.mp empty).2
  next other =>
    refine ⟨List.forall_mem_cons.mpr ⟨nonempty, ht⟩,
      List.isChain_cons.mpr ⟨fun next hn => .inr ?_, ha⟩⟩
    cases next with
    | text before =>
      obtain ⟨rest, rfl⟩ := List.head?_eq_some_iff.mp hn
      exact absurd rfl (other before rest)
    | unit => rfl

end Merged

end Fragment

theorem OpenUnit.tidy_close {unit : OpenUnit} (hm : Fragment.Merged unit.children) :
    unit.close.Tidy :=
  ⟨Fragment.allTidy_iff.mpr hm.reverse.tidy, hm.reverse.apart⟩

namespace Builder

def perform (builder : Builder) : MarkupCall → Builder
  | .openUnit label title node => builder.openUnit label title node
  | .text content => builder.text content
  | .close => builder.close
  | .assign node unit => builder.assign node unit

def after (calls : List MarkupCall) : Builder :=
  calls.foldl perform {}

/-- What holds of the empty builder and is kept by each call holds after all calls. -/
theorem after_induction {motive : Builder → Prop} (empty : motive {})
    (step : ∀ builder call, motive builder → motive (perform builder call))
    (calls : List MarkupCall) : motive (after calls) := by
  refine calls.foldlRecOn perform empty fun builder hh call _ => step builder call hh

/-- The units that were opened have the numbers from zero on, in that order. -/
def Counted (builder : Builder) : Prop :=
  builder.opened.map MarkupUnit.id = List.range builder.next

theorem Counted.perform {builder : Builder} (hcounted : builder.Counted) (call : MarkupCall) :
    (builder.perform call).Counted := by
  unfold Counted at hcounted ⊢
  cases call with
  | openUnit label title node =>
    rw [Builder.perform, opened_openUnit, List.map_append, hcounted]
    exact List.range_succ.symm
  | text content => rw [Builder.perform, opened_text, next_text, hcounted]
  | close => rw [Builder.perform, opened_close, next_close, hcounted]
  | assign node unit => exact hcounted

theorem map_id_finish {builder : Builder} (hcounted : builder.Counted) :
    builder.finish.units.map MarkupUnit.id = List.range builder.finish.unitCount := by
  have headings := congrArg (List.map MarkupUnit.id) builder.headings_finish
  rw [List.map_map, hcounted] at headings
  have lengths := congrArg List.length headings
  rw [List.length_map, List.length_range] at lengths
  rw [Document.unitCount, lengths]
  exact headings

/-- Whether text is told apart in all that is built so far. -/
structure Merged (builder : Builder) : Prop where
  roots : Fragment.Merged builder.roots
  children : ∀ unit ∈ builder.stack, Fragment.Merged unit.children

namespace Merged

variable {builder : Builder}

theorem update (hm : builder.Merged) {change : List Fragment → List Fragment}
    (hk : ∀ fragments, Fragment.Merged fragments → Fragment.Merged (change fragments)) :
    (builder.update change).Merged := by
  obtain ⟨roots, children⟩ := hm
  unfold Builder.update
  split
  next empty => exact ⟨hk _ roots, children⟩
  next unit others stack =>
    obtain ⟨innermost, outer⟩ := List.forall_mem_cons.mp (stack ▸ children)
    exact ⟨roots, List.forall_mem_cons.mpr ⟨hk _ innermost, outer⟩⟩

theorem perform (hm : builder.Merged) (call : MarkupCall) :
    (builder.perform call).Merged := by
  cases call with
  | openUnit label title node =>
    exact ⟨hm.roots, List.forall_mem_cons.mpr ⟨.nil, hm.children⟩⟩
  | text content =>
    rw [Builder.perform, Builder.text]
    split
    next => exact hm
    next nonempty =>
      refine hm.update fun fragments each => each.appendText ?_
      simpa [String.isEmpty_iff] using nonempty
  | close =>
    rw [Builder.perform, Builder.close]
    split
    next => exact hm
    next unit others stack =>
      obtain ⟨innermost, outer⟩ := List.forall_mem_cons.mp (stack ▸ hm.children)
      have below : ({ builder with stack := others } : Builder).Merged := ⟨hm.roots, outer⟩
      exact below.update fun fragments each => each.cons_unit (OpenUnit.tidy_close innermost) rfl
  | assign node unit => exact ⟨hm.roots, hm.children⟩

end Merged

theorem merged_closeAll {inner : Option Fragment} {stack : List OpenUnit} {roots : List Fragment}
    (hclosed : ∀ unit ∈ inner, unit.Tidy ∧ unit.isText = false)
    (children : ∀ unit ∈ stack, Fragment.Merged unit.children) (hm : Fragment.Merged roots) :
    Fragment.Merged (closeAll inner stack roots) := by
  have before {fragments : List Fragment} (hm : Fragment.Merged fragments)
      {inner : Option Fragment} (hclosed : ∀ unit ∈ inner, unit.Tidy ∧ unit.isText = false) :
      Fragment.Merged (inner.toList ++ fragments) := by
    cases inner with
    | none => exact hm
    | some unit => exact hm.cons_unit (hclosed unit rfl).1 (hclosed unit rfl).2
  induction stack generalizing inner with
  | nil => exact before hm hclosed
  | cons unit others ih =>
    obtain ⟨innermost, outer⟩ := List.forall_mem_cons.mp children
    refine ih (fun closing hc => ?_) outer
    cases hc
    exact ⟨OpenUnit.tidy_close (before innermost hclosed), rfl⟩

theorem Merged.finish {builder : Builder} (hm : builder.Merged) :
    Fragment.Merged builder.finish.roots :=
  (merged_closeAll (fun _ (closing : _ ∈ (none : Option Fragment)) => nomatch closing)
    hm.children hm.roots).reverse

theorem counted_after (calls : List MarkupCall) : (after calls).Counted :=
  after_induction (motive := Counted) rfl (fun _ call hcounted => hcounted.perform call) calls

theorem merged_after (calls : List MarkupCall) : (after calls).Merged :=
  after_induction (motive := Merged) ⟨.nil, nofun⟩ (fun _ call hm => hm.perform call) calls

end Builder

end SyntaxMarkup
