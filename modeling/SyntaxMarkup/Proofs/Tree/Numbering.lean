import SyntaxMarkup.Proofs.Tree.Traversal
import Mathlib.Data.List.Range

namespace SyntaxMarkup

variable {α β γ ι : Type}

section Threading

variable {m : Type → Type} [Monad m] [LawfulMonad m]

namespace Slot

theorem mapM_map (g : β → m γ) (f : α → β) (slot : Slot α) :
    (slot.map f).mapM g = slot.mapM (g ∘ f) := by
  cases slot with
  | one => rfl
  | maybe child => cases child <;> rfl
  | many items => simp [map, mapM, List.mapM_map]
  | sparse items =>
    simp only [map, mapM, List.mapM_map]
    congr 2
    funext item
    cases item <;> rfl

theorem children_mapM (f : α → m β) (slot : Slot α) :
    children <$> slot.mapM f = slot.children.mapM f := by
  cases slot with
  | one child => simp [mapM, children]
  | maybe child => cases child <;> simp [mapM, children]
  | many items => simp [mapM, children]
  | sparse items =>
    simp only [mapM, children, Functor.map_map]
    induction items with
    | nil => simp
    | cons item rest ih =>
      cases item with
      | none => simpa [List.mapM_cons] using ih
      | some child =>
        have hpresent : (some child :: rest).filterMap id = child :: rest.filterMap id := rfl
        rw [hpresent, List.mapM_cons (f := f), ← ih]
        simp [List.mapM_cons]

end Slot

theorem Field.children_mapM (f : α → m β) (fields : List (Field α)) :
    List.flatMap (·.slot.children) <$> fields.mapM (·.mapM f) =
      (fields.flatMap (·.slot.children)).mapM f := by
  induction fields with
  | nil => simp
  | cons field rest ih =>
    simp only [List.flatMap_cons, List.mapM_append, ← ih, ← Slot.children_mapM]
    simp [List.mapM_cons, Field.mapM]

end Threading

section State

variable {g : β → γ} {h : α → γ} {f : α → StateM Nat β}

theorem run_mapM_cons (f : α → StateM Nat β) (first : α) (rest : List α) (start : Nat) :
    ((first :: rest).mapM f).run start =
      (((f first).run start).1 :: ((rest.mapM f).run ((f first).run start).2).1,
        ((rest.mapM f).run ((f first).run start).2).2) := by
  rw [List.mapM_cons]
  rfl

/-- What holds of each result, whatever the number it starts from, holds of all of them. -/
theorem map_run_mapM {items : List α}
    (each : ∀ item ∈ items, ∀ start, g ((f item).run start).1 = h item) (start : Nat) :
    ((items.mapM f).run start).1.map g = items.map h := by
  induction items generalizing start with
  | nil => rfl
  | cons item rest ih =>
    rw [run_mapM_cons, List.map_cons, List.map_cons, each item List.mem_cons_self,
      ih fun other hm => each other (List.mem_cons_of_mem _ hm)]

theorem Slot.map_run_mapM {slot : Slot α}
    (each : ∀ child ∈ slot.children, ∀ start, g ((f child).run start).1 = h child) (start : Nat) :
    ((slot.mapM f).run start).1.map g = slot.map h := by
  cases slot with
  | one child => exact congrArg Slot.one (each child List.mem_cons_self start)
  | maybe child =>
    cases child with
    | none => rfl
    | some child => exact congrArg (Slot.maybe ∘ some) (each child List.mem_cons_self start)
  | many items => exact congrArg Slot.many (SyntaxMarkup.map_run_mapM each start)
  | sparse items =>
    refine congrArg Slot.sparse (SyntaxMarkup.map_run_mapM (fun item hm start => ?_) start)
    cases item with
    | none => rfl
    | some child =>
      exact congrArg some (each child (List.mem_filterMap.mpr ⟨_, hm, rfl⟩) start)

theorem Field.map_run_mapM {fields : List (Field α)}
    (each : ∀ child ∈ fields.flatMap (·.slot.children), ∀ start,
      g ((f child).run start).1 = h child) (start : Nat) :
    ((fields.mapM (Field.mapM f)).run start).1.map (Field.map g) = fields.map (Field.map h) := by
  refine SyntaxMarkup.map_run_mapM (fun field hm start => ?_) start
  exact congrArg (Field.mk field.name) (Slot.map_run_mapM
    (fun child hslot => each child (List.mem_flatMap_of_mem hm hslot)) start)

section Shift

variable {f' : α → StateM Nat γ} {g : β → γ} {offset : Nat}

/-- What another way to number, from greater numbers on, changes in each result, it changes in all
of them. -/
theorem run_mapM_add {items : List α}
    (each : ∀ item ∈ items, ∀ start, (f' item).run (offset + start) =
      (g ((f item).run start).1, offset + ((f item).run start).2)) (start : Nat) :
    (items.mapM f').run (offset + start) =
      (((items.mapM f).run start).1.map g, offset + ((items.mapM f).run start).2) := by
  induction items generalizing start with
  | nil => rfl
  | cons item rest ih =>
    rw [run_mapM_cons, run_mapM_cons, each item List.mem_cons_self,
      ih fun other hm => each other (List.mem_cons_of_mem _ hm)]
    rfl

theorem Slot.run_mapM_add {slot : Slot α}
    (each : ∀ child ∈ slot.children, ∀ start, (f' child).run (offset + start) =
      (g ((f child).run start).1, offset + ((f child).run start).2)) (start : Nat) :
    (slot.mapM f').run (offset + start) =
      (((slot.mapM f).run start).1.map g, offset + ((slot.mapM f).run start).2) := by
  cases slot with
  | one child => exact congrArg (Prod.map Slot.one id) (each child List.mem_cons_self start)
  | maybe child =>
    cases child with
    | none => rfl
    | some child =>
      exact congrArg (Prod.map (Slot.maybe ∘ some) id) (each child List.mem_cons_self start)
  | many items => exact congrArg (Prod.map Slot.many id) (SyntaxMarkup.run_mapM_add each start)
  | sparse items =>
    refine congrArg (Prod.map Slot.sparse id)
      (SyntaxMarkup.run_mapM_add (g := Option.map g) (fun item hm start => ?_) start)
    cases item with
    | none => rfl
    | some child =>
      exact congrArg (Prod.map some id) (each child (List.mem_filterMap.mpr ⟨_, hm, rfl⟩) start)

theorem Field.run_mapM_add {fields : List (Field α)}
    (each : ∀ child ∈ fields.flatMap (·.slot.children), ∀ start, (f' child).run (offset + start) =
      (g ((f child).run start).1, offset + ((f child).run start).2)) (start : Nat) :
    (fields.mapM (Field.mapM f')).run (offset + start) =
      (((fields.mapM (Field.mapM f)).run start).1.map (Field.map g),
        offset + ((fields.mapM (Field.mapM f)).run start).2) := by
  refine SyntaxMarkup.run_mapM_add (fun field hm start => ?_) start
  exact congrArg (Prod.map (Field.mk field.name) id) (Slot.run_mapM_add
    (fun child hslot => each child (List.mem_flatMap_of_mem hm hslot)) start)

end Shift

/-- Each result is that of an item at some number. -/
theorem exists_of_mem_run_mapM {items : List α} {start : Nat} {result : β}
    (hm : result ∈ ((items.mapM f).run start).1) :
    ∃ item ∈ items, ∃ first, result = ((f item).run first).1 := by
  induction items generalizing start with
  | nil => cases hm
  | cons item rest ih =>
    rw [run_mapM_cons] at hm
    rcases List.mem_cons.mp hm with rfl | hm
    · exact ⟨item, List.mem_cons_self, start, rfl⟩
    · obtain ⟨other, hrest, hf⟩ := ih hm
      exact ⟨other, List.mem_cons_of_mem _ hrest, hf⟩

end State

namespace Node

/-- Numbering a node numbers the children of its fields and then the node itself. -/
theorem number_eq (node : Node ι) :
    node.number = do
      let fields ← node.fields.mapM (·.mapM number)
      let id ← modifyGet fun next => (next, next + 1)
      return .mk id node.kind node.span fields := by
  conv_lhs => rw [number, fold_eq]
  rw [List.mapM_map]
  simp only [Function.comp_def, Field.mapM, Field.map, Slot.mapM_map]
  rfl

def numberChildren (node : Node ι) (start : Nat) : List (Node Nat) × Nat :=
  (node.children.mapM number).run start

theorem run_numberFields (node : Node ι) (start : Nat) :
    (((node.fields.mapM (Field.mapM number)).run start).1.flatMap (·.slot.children),
        ((node.fields.mapM (Field.mapM number)).run start).2) =
      node.numberChildren start := by
  rw [numberChildren, children_eq_flatMap, ← Field.children_mapM]
  rfl

theorem run_number (node : Node ι) (start : Nat) :
    node.number.run start =
      (.mk (node.numberChildren start).2 node.kind node.span
        ((node.fields.mapM (Field.mapM number)).run start).1,
        (node.numberChildren start).2 + 1) := by
  rw [← run_numberFields, number_eq]
  rfl

theorem run_number_fields (node : Node ι) (start : Nat) :
    node.number.run start =
      (.mk ((node.fields.mapM (Field.mapM number)).run start).2 node.kind node.span
        ((node.fields.mapM (Field.mapM number)).run start).1,
        ((node.fields.mapM (Field.mapM number)).run start).2 + 1) := by
  rw [run_number, ← run_numberFields]

theorem children_number (node : Node ι) (start : Nat) :
    (node.number.run start).1.children = (node.numberChildren start).1 := by
  rw [← run_numberFields, run_number, children_eq_flatMap]
  rfl

/-- A numbered tree is the tree that was numbered. -/
theorem rebuild_number (place : Option Span → Option Span) (node : Node ι) (start : Nat) :
    (node.number.run start).1.rebuild (fun _ => ()) place = node.rebuild (fun _ => ()) place := by
  induction node using induction generalizing start with
  | step node ih =>
    have each := fun child (hm : child ∈ node.fields.flatMap (·.slot.children)) =>
      ih child (by rwa [children_eq_flatMap])
    rw [run_number, rebuild_eq, rebuild_eq]
    exact congrArg (Node.mk () node.kind (place node.span)) (Field.map_run_mapM each start)

/-- The same tree with greater numbers. -/
def shift (offset : Nat) : Node Nat → Node Nat :=
  rebuild (offset + ·) fun place => place

theorem number_add (node : Node ι) (offset start : Nat) :
    node.number.run (offset + start) =
      ((node.number.run start).1.shift offset, offset + (node.number.run start).2) := by
  induction node using induction generalizing start with
  | step node ih =>
    have fields := Field.run_mapM_add (f := number) (g := shift offset)
      (fun child hm start => ih child (by rwa [children_eq_flatMap]) start) start
    rw [run_number_fields, run_number_fields, fields, shift, rebuild_eq]
    rfl

/-- Numbers do not depend on places in the source text. -/
theorem number_rebuild (place : Option Span → Option Span) (node : Node ι) (start : Nat) :
    (node.rebuild (fun number => number) place).number.run start =
      ((node.number.run start).1.rebuild (fun number => number) place,
        (node.number.run start).2) := by
  induction node using induction generalizing start with
  | step node ih =>
    have each := fun child (hm : child ∈ node.fields.flatMap (·.slot.children)) =>
      ih child (by rwa [children_eq_flatMap])
    have fields :
        (node.fields.mapM (Field.mapM (number ∘ rebuild (fun number => number) place))).run
        (0 + start) = (((node.fields.mapM (Field.mapM number)).run start).1.map
          (Field.map (rebuild (fun number => number) place)),
          0 + ((node.fields.mapM (Field.mapM number)).run start).2) :=
      Field.run_mapM_add (fun child hm start => by simpa using each child hm start) start
    have threaded : (node.fields.map (Field.map (rebuild (fun number => number) place))).mapM
        (Field.mapM number) =
        node.fields.mapM (Field.mapM (number ∘ rebuild (fun number => number) place)) := by
      rw [List.mapM_map]
      refine congrArg (fun f => node.fields.mapM f) (funext fun field => ?_)
      exact congrArg (Field.mk field.name <$> ·) (Slot.mapM_map _ _ field.slot)
    rw [Nat.zero_add, Nat.zero_add, ← threaded] at fields
    rw [run_number_fields node, rebuild_eq, run_number_fields, rebuild_eq]
    exact congrArg (fun result : List (Field (Node Nat)) × Nat =>
      (mk result.2 node.kind (place node.span) result.1, result.2 + 1)) fields

/-- The nodes below a numbered node are numbered on their own, from some number on. -/
theorem exists_number_of_mem_preorder {node : Node ι} {start : Nat} {below : Node Nat}
    (hm : below ∈ (node.number.run start).1.preorder) :
    ∃ part : Node ι, ∃ first, below = (part.number.run first).1 := by
  induction node using induction generalizing start with
  | step node ih =>
    rw [preorder_eq] at hm
    rcases List.mem_cons.mp hm with rfl | hm
    · exact ⟨node, start, rfl⟩
    · obtain ⟨child, hc, hm⟩ := List.mem_flatMap.mp hm
      rw [children_number] at hc
      obtain ⟨part, hp, first, rfl⟩ := exists_of_mem_run_mapM hc
      exact ih part hp hm

/-- The nodes at and below a node get the numbers from the first free one on, each after those
below it. -/
theorem number_postorder (node : Node ι) (start : Nat) :
    (node.number.run start).1.postorder.map id = List.range' start node.size ∧
      (node.number.run start).2 = start + node.size := by
  induction node using induction generalizing start with
  | step node ih =>
    -- the children in turn: each starts at the number after the one before it
    have forest (items : List (Node ι)) (hm : ∀ item ∈ items, item ∈ node.children) (n : Nat) :
        (((items.mapM number).run n).1.flatMap postorder).map id =
            List.range' n (items.map size).sum ∧
          ((items.mapM number).run n).2 = n + (items.map size).sum := by
      induction items generalizing n with
      | nil => exact ⟨rfl, rfl⟩
      | cons item rest others =>
        obtain ⟨first, next⟩ := ih item (hm item List.mem_cons_self) n
        obtain ⟨later, last⟩ :=
          others (fun other h => hm other (List.mem_cons_of_mem _ h)) (n + item.size)
        rw [run_mapM_cons, next]
        refine ⟨?_, by rw [last, List.map_cons, List.sum_cons]; omega⟩
        rw [List.flatMap_cons, List.map_append, first, later, List.map_cons, List.sum_cons,
          List.range'_append_1]
    obtain ⟨below, next⟩ := forest node.children (fun _ h => h) start
    rw [postorder_eq, children_number, List.map_append, size_eq, Nat.add_comm, run_number]
    refine ⟨?_, ?_⟩
    · rw [numberChildren, below, List.range'_concat]
      simp [id, next]
    · show (node.numberChildren start).2 + 1 = _
      rw [numberChildren, next]
      omega

end Node

end SyntaxMarkup
