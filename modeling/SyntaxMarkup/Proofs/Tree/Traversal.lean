import SyntaxMarkup.Tree.Node
import Mathlib.Algebra.GroupWithZero.Nat
import Mathlib.Data.List.Perm.Basic

namespace SyntaxMarkup

variable {α β γ ι κ : Type}

/-- In a list whose elements are numbered by their positions, each stands at its number. -/
theorem getElem?_eq_some_iff_of_range {items : List α} {number : α → Nat} {size : Nat}
    (h : items.map number = List.range size) {place : Nat} {item : α} :
    items[place]? = some item ↔ item ∈ items ∧ number item = place := by
  have hp {place : Nat} {item : α} (hf : items[place]? = some item) :
      number item = place := by
    have same : (items.map number)[place]? = some (number item) := by
      rw [List.getElem?_map, hf, Option.map_some]
    rw [h] at same
    obtain ⟨_, eq⟩ := List.getElem?_eq_some_iff.mp same
    simpa using eq.symm
  constructor
  · exact fun hf => ⟨List.mem_of_getElem? hf, hp hf⟩
  · rintro ⟨hm, rfl⟩
    obtain ⟨place, hf⟩ := List.mem_iff_getElem?.mp hm
    rwa [hp hf]

namespace Slot

theorem arity_map (f : α → β) (slot : Slot α) : (slot.map f).arity = slot.arity := by
  cases slot <;> rfl

theorem map_map (g : β → γ) (f : α → β) (slot : Slot α) :
    (slot.map f).map g = slot.map (g ∘ f) := by
  cases slot with
  | one => rfl
  | maybe child => cases child <;> rfl
  | many => simp [map]
  | sparse => simp [map]

theorem map_congr {f g : α → β} {slot : Slot α}
    (same : ∀ child ∈ slot.children, f child = g child) :
    slot.map f = slot.map g := by
  cases slot with
  | one child => exact congrArg Slot.one (same child List.mem_cons_self)
  | maybe child =>
    cases child with
    | none => rfl
    | some child => exact congrArg (Slot.maybe ∘ some) (same child List.mem_cons_self)
  | many children => exact congrArg Slot.many (List.map_congr_left same)
  | sparse children =>
    refine congrArg Slot.sparse (List.map_congr_left fun item hm => ?_)
    cases item with
    | none => rfl
    | some child => exact congrArg some (same child (List.mem_filterMap.mpr ⟨_, hm, rfl⟩))

theorem map_eq_self {f : α → α} {slot : Slot α} (same : ∀ child ∈ slot.children, f child = child) :
    slot.map f = slot := by
  refine (map_congr same).trans ?_
  cases slot <;> simp [map]

theorem map_snd_entries (slot : Slot α) : slot.entries.map Prod.snd = slot.children := by
  cases slot with
  | one => rfl
  | maybe child => cases child <;> rfl
  | many items => simp [entries, children, List.map_map, Function.comp_def]
  | sparse items =>
    simp only [entries, children]
    generalize 0 = start
    induction items generalizing start with
    | nil => rfl
    | cons item rest ih => cases item <;> simp [ih]

end Slot

namespace Node

variable {f : Node ι → List (Field (Computed ι β)) → β}

theorem children_eq_flatMap (node : Node ι) :
    node.children = node.fields.flatMap (·.slot.children) := by
  rw [children, slots, List.flatMap_map]

theorem flatMap_children_computed (node : Node ι) :
    (node.fields.map (·.map (computed f))).flatMap (·.slot.children) =
      node.children.map (computed f) := by
  simp [children_eq_flatMap, List.flatMap_map, List.map_flatMap, Field.map, Slot.children_map]

def size : Node ι → Nat :=
  fold fun _ fields => 1 + ((fields.flatMap (·.slot.children)).map Computed.value).sum

theorem size_eq (node : Node ι) : node.size = 1 + (node.children.map size).sum := by
  rw [size, fold_eq, flatMap_children_computed, List.map_map]
  rfl

theorem postorder_eq (node : Node ι) :
    node.postorder = node.children.flatMap postorder ++ [node] := by
  rw [postorder, fold_eq, flatMap_children_computed, List.flatMap_map]
  rfl

theorem preorder_eq (node : Node ι) : node.preorder = node :: node.children.flatMap preorder := by
  rw [preorder, fold_eq, flatMap_children_computed, List.flatMap_map]
  rfl

theorem descendants_eq (node : Node ι) : node.descendants = node.children.flatMap preorder := by
  rw [descendants, preorder_eq, List.tail_cons]

theorem preorder_eq_cons (node : Node ι) : node.preorder = node :: node.descendants := by
  rw [preorder_eq, descendants_eq]

theorem mem_preorder_of_mem_descendants {node below : Node ι} (h : below ∈ node.descendants) :
    below ∈ node.preorder := by
  rw [preorder_eq_cons]
  exact List.mem_cons_of_mem _ h

theorem size_pos (node : Node ι) : 0 < node.size := by
  rw [size_eq]
  omega

theorem length_postorder (node : Node ι) : node.postorder.length = node.size := by
  induction node using induction with
  | step node ih =>
    rw [postorder_eq, size_eq, List.length_append, List.length_flatMap, List.length_singleton,
      List.map_congr_left ih, Nat.add_comm]

theorem postorder_perm_preorder (node : Node ι) : node.postorder.Perm node.preorder := by
  induction node using induction with
  | step node ih =>
    rw [postorder_eq, preorder_eq]
    exact (List.perm_append_singleton _ _).trans ((List.Perm.flatMap_left _ ih).cons node)

theorem self_mem_preorder (node : Node ι) : node ∈ node.preorder := by
  rw [preorder_eq]
  exact List.mem_cons_self

theorem mem_preorder_of_child {node child below : Node ι} (hc : child ∈ node.children)
    (h : below ∈ child.preorder) : below ∈ node.preorder := by
  rw [preorder_eq]
  exact List.mem_cons_of_mem _ (List.mem_flatMap_of_mem hc h)

theorem child_mem_preorder {node child : Node ι} (hc : child ∈ node.children) :
    child ∈ node.preorder :=
  mem_preorder_of_child hc child.self_mem_preorder

theorem mem_preorder_trans {node middle below : Node ι} (h : middle ∈ node.preorder)
    (h' : below ∈ middle.preorder) : below ∈ node.preorder := by
  induction node using induction with
  | step node ih =>
    rw [preorder_eq] at h
    rcases List.mem_cons.mp h with rfl | h
    · exact h'
    · obtain ⟨child, hc, h⟩ := List.mem_flatMap.mp h
      exact mem_preorder_of_child hc (ih child hc h)

def signature (node : Node ι) : List (String × Arity) :=
  node.fields.map fun field => (field.name, field.slot.arity)

/-- The same tree with other numbers and other places in the source text. -/
def rebuild (number : ι → κ) (place : Option Span → Option Span) : Node ι → Node κ :=
  fold fun node fields =>
    .mk (number node.id) node.kind (place node.span) (fields.map (·.map Computed.value))

section Rebuild

variable (number : ι → κ) (place : Option Span → Option Span)

theorem rebuild_eq (node : Node ι) :
    node.rebuild number place = .mk (number node.id) node.kind (place node.span)
      (node.fields.map (·.map (rebuild number place))) := by
  rw [rebuild, fold_eq, List.map_map]
  congr 1
  refine List.map_congr_left fun field _ => ?_
  simp [Field.map, Slot.map_map, Function.comp_def, computed]

theorem kind_rebuild (node : Node ι) : (node.rebuild number place).kind = node.kind := by
  rw [rebuild_eq]
  rfl

theorem signature_rebuild (node : Node ι) :
    (node.rebuild number place).signature = node.signature := by
  rw [rebuild_eq]
  simp [signature, fields, Field.map, Slot.arity_map, Function.comp_def]

theorem children_rebuild (node : Node ι) :
    (node.rebuild number place).children = node.children.map (rebuild number place) := by
  rw [rebuild_eq]
  simp [children_eq_flatMap, fields, List.flatMap_map, List.map_flatMap, Field.map,
    Slot.children_map]

theorem preorder_rebuild (node : Node ι) :
    (node.rebuild number place).preorder = node.preorder.map (rebuild number place) := by
  induction node using induction with
  | step node ih =>
    rw [preorder_eq, preorder_eq, children_rebuild, List.map_cons, List.flatMap_map,
      List.map_flatMap, List.flatMap_congr ih]

theorem postorder_rebuild (node : Node ι) :
    (node.rebuild number place).postorder = node.postorder.map (rebuild number place) := by
  induction node using induction with
  | step node ih =>
    rw [postorder_eq, postorder_eq, children_rebuild, List.map_append, List.flatMap_map,
      List.map_flatMap, List.flatMap_congr ih]
    rfl

end Rebuild

/-- A node without a number stays as it is if its place and its children do. -/
theorem rebuild_eq_self {place : Option Span → Option Span} {kind : Kind} {span : Option Span}
    {fields : List (Field (Node Unit))} (placed : place span = span)
    (same : ∀ child ∈ (Node.mk () kind span fields).children,
      child.rebuild (fun _ => ()) place = child) :
    (Node.mk () kind span fields).rebuild (fun _ => ()) place = .mk () kind span fields := by
  rw [rebuild_eq]
  refine (congrArg (Node.mk () kind · _) placed).trans (congrArg (Node.mk () kind span) ?_)
  refine (List.map_congr_left fun field hm => ?_).trans (List.map_id' fields)
  refine congrArg (Field.mk field.name) (Slot.map_eq_self fun child hc => same child ?_)
  rw [children_eq_flatMap]
  exact List.mem_flatMap_of_mem hm hc

end Node

end SyntaxMarkup
