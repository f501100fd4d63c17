import SyntaxMarkup.Proofs.Breadcrumb.Trail
import Mathlib.Data.List.Induction

namespace SyntaxMarkup

namespace BreadcrumbElement

inductive Call where
  | attributeChanged (name : String) (value : Option String)
  | connected

namespace Call

/-- The value of an attribute after a call. -/
def given (name : String) (before : Option String) : Call → Option String
  | attributeChanged changed value => if changed = name then value else before
  | connected => before

/-- The value that an attribute was last set to; it is not there at first. -/
def last (name : String) (calls : List Call) : Option String :=
  calls.foldl (given name) none

/-- Whether a call makes a difference to an element after other calls. -/
def Matters (calls : List Call) : Call → Prop
  | attributeChanged name value => name ∈ ["value", "separator"] ∧ last name calls ≠ value
  | connected => True

theorem last_concat (name : String) (calls : List Call) (call : Call) :
    last name (calls ++ [call]) = call.given name (last name calls) := by
  rw [last, List.foldl_append, List.foldl_cons, List.foldl_nil, last]

end Call

/-- Carries out a call; the result tells whether the element was rendered. -/
def perform (element : BreadcrumbElement) : Call → Bool × BreadcrumbElement
  | .attributeChanged name value =>
    let (rendered, element, _) := element.setAttribute name value
    (rendered, element)
  | .connected => (true, element.render.1)

/-- An element and how often it was rendered. -/
structure History where
  element : BreadcrumbElement := {}
  renders : Nat := 0

def History.perform (history : History) (call : Call) : History :=
  let (rendered, element) := history.element.perform call
  { element, renders := history.renders + rendered.toNat }

def after (calls : List Call) : History :=
  calls.foldl History.perform {}

theorem after_concat (calls : List Call) (call : Call) :
    after (calls ++ [call]) = (after calls).perform call := by
  rw [after, List.foldl_append, List.foldl_cons, List.foldl_nil, after]

section Step

variable (element : BreadcrumbElement)

theorem withAttribute_eq (name : String) (value : Option String) :
    element.withAttribute name value =
      { value := (Call.attributeChanged name value).given "value" element.value
        separator := (Call.attributeChanged name value).given "separator" element.separator
        shown := element.shown } := by
  unfold withAttribute
  split
  case h_3 hv hs =>
    simp only [Call.given]
    rw [if_neg hv, if_neg hs]
  all_goals rfl

theorem perform_of_eq {name : String} {value : Option String}
    (same : element.withAttribute name value = element) :
    element.perform (.attributeChanged name value) = (false, element) := by
  rw [perform, setAttribute]
  dsimp only
  rw [if_pos same]

theorem perform_of_ne {name : String} {value : Option String}
    (new : element.withAttribute name value ≠ element) :
    element.perform (.attributeChanged name value) =
      (true, (element.withAttribute name value).render.1) := by
  rw [perform, setAttribute]
  dsimp only
  rw [if_neg new]

/-- A call leaves an element and its attributes alone, or the element is rendered for the
attributes that the call gives. -/
theorem perform_cases (call : Call) :
    (element.perform call = (false, element) ∧
      call.given "value" element.value = element.value ∧
      call.given "separator" element.separator = element.separator) ∨
    element.perform call = (true, (⟨call.given "value" element.value,
      call.given "separator" element.separator, element.shown⟩ : BreadcrumbElement).render.1) := by
  cases call with
  | connected => exact .inr rfl
  | attributeChanged name value =>
    rw [← withAttribute_eq]
    by_cases same : element.withAttribute name value = element
    · have attributes := (element.withAttribute_eq name value).symm.trans same
      exact .inl ⟨element.perform_of_eq same, congrArg BreadcrumbElement.value attributes,
        congrArg BreadcrumbElement.separator attributes⟩
    · exact .inr (element.perform_of_ne same)

theorem rendered_perform (name : String) (value : Option String) :
    (element.perform (.attributeChanged name value)).1 = true ↔
      name = "value" ∧ element.value ≠ value ∨ name = "separator" ∧ element.separator ≠ value := by
  have changed : (element.perform (.attributeChanged name value)).1 = true ↔
      element.withAttribute name value ≠ element := by
    by_cases same : element.withAttribute name value = element
    · simp [element.perform_of_eq same, same]
    · simp [element.perform_of_ne same, same]
  rw [changed]
  unfold withAttribute
  cases element
  split
  case h_3 hv hs =>
    refine iff_of_false (fun new => new rfl) ?_
    rintro (⟨hvalue, -⟩ | ⟨hsep, -⟩)
    · exact hv hvalue
    · exact hs hsep
  all_goals simp [eq_comm]

end Step

/-- Whether an element shows what its attributes ask for, once it has been rendered. -/
structure History.Follows (history : History) (calls : List Call) : Prop where
  value : history.element.value = Call.last "value" calls
  separator : history.element.separator = Call.last "separator" calls
  shown : history.element.shown = if history.renders = 0 then none else
    some (.ofAttributes (Call.last "value" calls) (Call.last "separator" calls))

theorem History.Follows.perform {history : History} {calls : List Call}
    (hf : history.Follows calls) (call : Call) :
    (history.perform call).Follows (calls ++ [call]) := by
  obtain ⟨value, separator, hshown⟩ := hf
  rcases history.element.perform_cases call with ⟨same, value', separator'⟩ | hr
  · have value' : Call.last "value" (calls ++ [call]) = Call.last "value" calls := by
      rw [Call.last_concat, ← value, value']
    have separator' : Call.last "separator" (calls ++ [call]) = Call.last "separator" calls := by
      rw [Call.last_concat, ← separator, separator']
    rw [History.perform, same]
    exact ⟨value.trans value'.symm, separator.trans separator'.symm, by
      rw [value', separator']; exact hshown⟩
  · rw [History.perform, hr]
    constructor
    · rw [Call.last_concat, ← value]
      rfl
    · rw [Call.last_concat, ← separator]
      rfl
    · rw [Call.last_concat, Call.last_concat, ← value, ← separator]
      rfl

theorem follows_after (calls : List Call) : (after calls).Follows calls := by
  induction calls using List.reverseRecOn with
  | nil => exact ⟨rfl, rfl, rfl⟩
  | append_singleton calls call ih => exact after_concat calls call ▸ ih.perform call

theorem rendered_iff_matters (calls : List Call) (call : Call) :
    ((after calls).element.perform call).1 = true ↔ call.Matters calls := by
  cases call with
  | connected => exact iff_of_true rfl trivial
  | attributeChanged name value =>
    have hf := follows_after calls
    rw [rendered_perform, hf.value, hf.separator, Call.Matters]
    constructor
    · rintro (⟨rfl, new⟩ | ⟨rfl, new⟩)
      · exact ⟨by decide, new⟩
      · exact ⟨by decide, new⟩
    · rintro ⟨observed, new⟩
      simp only [List.mem_cons, List.not_mem_nil, or_false] at observed
      rcases observed with rfl | rfl
      · exact .inl ⟨rfl, new⟩
      · exact .inr ⟨rfl, new⟩

theorem html_after (calls : List Call) :
    (after calls).element.html = if (after calls).renders = 0 then "" else
      (Breadcrumb.ofAttributes (Call.last "value" calls) (Call.last "separator" calls)).html := by
  rw [html, (follows_after calls).shown]
  split <;> rfl

end BreadcrumbElement

namespace Breadcrumb

open Html (TrailItem trail?)

/-- The crumb that an item on a page stands for. -/
def crumbOf (item : TrailItem) : Crumb :=
  ⟨item.label, item.url⟩

/-- Whether the items on a page are those of a breadcrumb: one for each crumb, which a click on it
leads to, and the last one marked as the page that is shown. -/
structure ReadsAs (breadcrumb : Breadcrumb) (items : List TrailItem) : Prop where
  crumbs : items.map crumbOf = breadcrumb.items
  index : ∀ (i : Nat) (item : TrailItem), items[i]? = some item → item.index = i
  activate : ∀ i, breadcrumb.activate? i = items[i]?.map crumbOf
  past : ∀ i, breadcrumb.activate? i = none ↔ items.length ≤ i
  active : ∀ (i : Nat) (item : TrailItem), items[i]? = some item →
    ("active" ∈ item.classes ↔ i + 1 = items.length)
  current : ∀ (i : Nat) (item : TrailItem), items[i]? = some item →
    item.current = if i + 1 = items.length then some "page" else none

theorem crumbOf_shownItem (index : Nat) (last : Bool) (crumb : Crumb) :
    crumbOf (shownItem index last crumb) = crumb :=
  rfl

theorem map_crumbOf_shownItems (breadcrumb : Breadcrumb) :
    breadcrumb.shownItems.map crumbOf = breadcrumb.items := by
  rw [shownItems, List.map_map]
  exact List.zipIdx_map_fst 0 _

theorem length_shownItems (breadcrumb : Breadcrumb) :
    breadcrumb.shownItems.length = breadcrumb.items.length := by
  rw [← breadcrumb.map_crumbOf_shownItems, List.length_map]

theorem eq_shownItem_of_getElem? {breadcrumb : Breadcrumb} {i : Nat} {item : TrailItem}
    (hf : breadcrumb.shownItems[i]? = some item) :
    item = shownItem i (i + 1 == breadcrumb.shownItems.length) (crumbOf item) := by
  rw [length_shownItems]
  rw [shownItems, List.getElem?_map, List.getElem?_zipIdx] at hf
  obtain ⟨⟨crumb, place⟩, ht, rfl⟩ := Option.map_eq_some_iff.mp hf
  obtain ⟨crumb, -, same⟩ := Option.map_eq_some_iff.mp ht
  cases same
  simp [crumbOf_shownItem]

theorem readsAs_shownItems (breadcrumb : Breadcrumb) :
    breadcrumb.ReadsAs breadcrumb.shownItems where
  crumbs := breadcrumb.map_crumbOf_shownItems
  index i item hf := by rw [eq_shownItem_of_getElem? hf]; rfl
  activate i := by rw [activate?, ← List.getElem?_map, map_crumbOf_shownItems]
  past i := by rw [activate?, List.getElem?_eq_none_iff, length_shownItems]
  active i item hf := by
    rw [eq_shownItem_of_getElem? hf, shownItem]
    by_cases last : i + 1 = breadcrumb.shownItems.length <;> simp [last]
  current i item hf := by
    rw [eq_shownItem_of_getElem? hf, shownItem]
    by_cases last : i + 1 = breadcrumb.shownItems.length <;> simp [last]

end Breadcrumb

namespace BreadcrumbElement

/-- After any calls, an element that was never rendered has no text, and any other one has that of
the breadcrumb of the values that its attributes were last set to; a call renders it exactly if it
connects the element or changes one of these values. The text of any breadcrumb reads back as its
items. -/
theorem shows_trail_of_attributes :
    (∀ calls, let final := after calls
      (final.element.html = if final.renders = 0 then "" else
        (Breadcrumb.ofAttributes (Call.last "value" calls) (Call.last "separator" calls)).html) ∧
      ∀ call, (final.element.perform call).1 = true ↔ call.Matters calls) ∧
    ∀ breadcrumb : Breadcrumb, ∃ items,
      Html.trail? breadcrumb.html = some items ∧ breadcrumb.ReadsAs items :=
  ⟨fun calls => ⟨html_after calls, rendered_iff_matters calls⟩,
    fun breadcrumb => ⟨_, breadcrumb.trail?_html, breadcrumb.readsAs_shownItems⟩⟩

end BreadcrumbElement

end SyntaxMarkup
