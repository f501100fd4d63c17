import SyntaxMarkup.Proofs.Layout.Renumbering
import SyntaxMarkup.Proofs.Partial
import SyntaxMarkup.Proofs.Tree.Ancestors

namespace SyntaxMarkup

/-- A node as it stands in a table. -/
structure Record where
  kind : Kind
  span : Option Span
  fields : List (Field Nat)

namespace Record

def slots (record : Record) : List (Slot Nat) :=
  record.fields.map Field.slot

def children (record : Record) : List Nat :=
  record.slots.flatMap Slot.children

end Record

namespace Node

def record (node : Node Nat) : Record :=
  ⟨node.kind, node.span, node.fields.map (·.map id)⟩

theorem kind_record (node : Node Nat) : node.record.kind = node.kind :=
  rfl

theorem slots_record (node : Node Nat) : node.record.slots = node.slots.map (·.map id) :=
  node.map_slot_fields id

theorem children_record (node : Node Nat) : node.record.children = node.children.map id := by
  rw [Record.children, slots_record, children, List.flatMap_map, List.map_flatMap]
  exact List.flatMap_congr fun slot _ => slot.children_map id

end Node

section Options

variable {α β : Type}

theorem Slot.mapM_eq_some {slot : Slot α} {f : α → Option β} {g : α → β}
    (each : ∀ child ∈ slot.children, f child = some (g child)) :
    slot.mapM f = some (slot.map g) := by
  cases slot with
  | one child =>
    rw [mapM, each child List.mem_cons_self]
    rfl
  | maybe child =>
    cases child with
    | none => rfl
    | some child =>
      rw [mapM, each child List.mem_cons_self]
      rfl
  | many children => exact congrArg (many <$> ·) (mapM_eq_some_map each)
  | sparse children =>
    refine congrArg (sparse <$> ·) (mapM_eq_some_map (g := Option.map g) fun child hm => ?_)
    cases child with
    | none => rfl
    | some child =>
      dsimp only
      rw [each child (List.mem_filterMap.mpr ⟨_, hm, rfl⟩)]
      rfl

/-- A function that is defined on the names of the children is so on the field that has them. -/
theorem Field.mapM_map_eq_some {γ : Type} {field : Field γ} {name : γ → α} {f : α → Option β}
    {g : γ → β} (each : ∀ child ∈ field.slot.children, f (name child) = some (g child)) :
    (field.map name).mapM f = some (field.map g) := by
  rw [Field.mapM, Field.map, Slot.mapM_map, Slot.mapM_eq_some (f := f ∘ name) each]
  rfl

end Options

namespace Tree

variable {tree : Tree} {id : Nat} {record : Record}

def record? (tree : Tree) (id : Nat) : Option Record :=
  (tree.node? id).map Node.record

theorem record?_id {node : Node Nat} (hm : node ∈ tree.root.preorder) :
    tree.record? node.id = some node.record := by
  rw [record?, node?_id hm, Option.map_some]

/-- Exactly the numbers below the size of a tree are in bounds. -/
theorem isSome_record? : (tree.record? id).isSome ↔ id < tree.size := by
  rw [record?, Option.isSome_map, node?, isSome_getElem?]
  rfl

/-- The children of a node have smaller numbers. -/
theorem lt_of_mem_record (hf : tree.record? id = some record) {child : Nat}
    (hm : child ∈ record.children) : child < id := by
  obtain ⟨node, hk, rfl⟩ := Option.map_eq_some_iff.mp hf
  obtain ⟨ht, rfl⟩ := node?_eq_some_iff.mp hk
  rw [Node.children_record] at hm
  obtain ⟨below, hc, rfl⟩ := List.mem_map.mp hm
  exact id_lt_of_child ht hc

section Fold

variable {β : Type} (f : Node Nat → List (Field (Computed Nat β)) → β)

/-- Computes from the leaves up, as `Node.fold` does, with look-ups at most `depth` deep by the
numbers in the records. -/
def fold? (tree : Tree) : (depth : Nat) → (id : Nat) → Option (Computed Nat β)
  | 0, _ => none
  | depth + 1, id => do
    let record ← tree.record? id
    let fields ← record.fields.mapM (·.mapM (tree.fold? depth))
    let node := .mk id record.kind record.span (fields.map (·.map Computed.node))
    return ⟨node, f node fields⟩

/-- By the numbers all nodes are found, and the same is computed. -/
theorem fold?_id {node : Node Nat} (hm : node ∈ tree.root.preorder) {depth : Nat}
    (deep : node.id < depth) : tree.fold? f depth node.id = some (node.computed f) := by
  induction depth generalizing node with
  | zero => omega
  | succ depth ih =>
    have children : node.record.fields.mapM (Field.mapM (tree.fold? f depth)) =
        some (node.fields.map (Field.map (Node.computed f))) := by
      rw [Node.record, List.mapM_map]
      refine mapM_eq_some_map fun field hfields => Field.mapM_map_eq_some fun child hfield => ?_
      have hc : child ∈ node.children := by
        rw [Node.children_eq_flatMap]
        exact List.mem_flatMap_of_mem hfields hfield
      have lower := id_lt_of_child hm hc
      exact ih (Node.mem_preorder_trans hm (Node.child_mem_preorder hc)) (by omega)
    have same : (node.fields.map (Field.map (Node.computed f))).map (Field.map Computed.node) =
        node.fields := by
      rw [List.map_map]
      refine (List.map_congr_left fun field _ => ?_).trans (List.map_id _)
      rw [Function.comp_apply, Field.map, Field.map, Slot.map_map]
      exact congrArg (Field.mk field.name) (Slot.map_eq_self fun _ _ => rfl)
    rw [fold?, record?_id hm]
    simp only [Option.bind_eq_bind, Option.bind_some, children, same, pure]
    rw [Node.computed, Node.fold_eq]
    obtain ⟨id, kind, span, fields⟩ := node
    rfl

end Fold

end Tree

section Rendering

/-- What a node writes at each place, from what its children write. -/
def Node.inscribe (node : Node Nat) (fields : List (Field Part)) (place : Place) (level : Nat) :
    List Event :=
  node.framed ((node.pieces (fields.map Field.slot) place).flatMap (Piece.events level))

/-- To render a tree is to compute from its leaves up, so that can be done by the numbers in the
records. -/
theorem Tree.exists_fold?_root (tree : Tree) :
    ∃ part, tree.fold? Node.inscribe tree.size tree.root.id = some part ∧
      part.value .plain 0 = tree.events :=
  ⟨_, fold?_id _ tree.root.self_mem_preorder (id_lt_size tree.root.self_mem_preorder), rfl⟩

end Rendering

end SyntaxMarkup
