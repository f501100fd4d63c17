import SyntaxMarkup.Tree.Fields

namespace SyntaxMarkup

inductive Slot (α : Type) where
  | one (child : α)
  | maybe (child : Option α)
  | many (children : List α)
  | sparse (children : List (Option α))

namespace Slot

variable {α β : Type}

def arity : Slot α → Arity
  | .one _ => .one
  | .maybe _ => .maybe
  | .many _ => .many
  | .sparse _ => .sparse

/-- The children with their places; a list counts its holes. -/
def entries : Slot α → List (Option Nat × α)
  | .one child => [(none, child)]
  | .maybe child => (child.map (none, ·)).toList
  | .many children => children.zipIdx.map fun (child, index) => (some index, child)
  | .sparse children =>
    children.zipIdx.filterMap fun (child, index) => child.map (some index, ·)

def children : Slot α → List α
  | .one child => [child]
  | .maybe child => child.toList
  | .many children => children
  | .sparse children => children.filterMap id

def map (f : α → β) : Slot α → Slot β
  | .one child => .one (f child)
  | .maybe child => .maybe (child.map f)
  | .many children => .many (children.map f)
  | .sparse children => .sparse (children.map (·.map f))

theorem children_map (f : α → β) (slot : Slot α) :
    (slot.map f).children = slot.children.map f := by
  cases slot with
  | one => rfl
  | maybe child => cases child <;> rfl
  | many => rfl
  | sparse items => simp [map, Slot.children, List.filterMap_map, List.map_filterMap]

def mapM {m : Type → Type} [Monad m] (f : α → m β) : Slot α → m (Slot β)
  | .one child => .one <$> f child
  | .maybe none => pure (.maybe none)
  | .maybe (some child) => (.maybe <| some ·) <$> f child
  | .many children => .many <$> children.mapM f
  | .sparse children =>
    .sparse <$> children.mapM fun
      | none => pure none
      | some child => some <$> f child

end Slot

structure Field (α : Type) where
  name : String
  slot : Slot α

def Field.map {α β : Type} (f : α → β) (field : Field α) : Field β :=
  ⟨field.name, field.slot.map f⟩

def Field.mapM {m : Type → Type} {α β : Type} [Monad m] (f : α → m β) (field : Field α) :
    m (Field β) :=
  .mk field.name <$> field.slot.mapM f

structure Span where
  start : Nat
  stop : Nat
  deriving DecidableEq, Repr

/-- A node of a tree whose nodes carry an `ι`. -/
inductive Node (ι : Type) where
  | mk (id : ι) (kind : Kind) (span : Option Span) (fields : List (Field (Node ι)))

/-- A child reached from a node by the name of the field, and by its place in a list. -/
structure Edge (α : Type) where
  key : String
  index : Option Nat
  child : α

structure Computed (ι β : Type) where
  node : Node ι
  value : β

namespace Node

variable {ι β : Type}

def id : Node ι → ι
  | .mk id _ _ _ => id

def kind : Node ι → Kind
  | .mk _ kind _ _ => kind

def span : Node ι → Option Span
  | .mk _ _ span _ => span

def fields : Node ι → List (Field (Node ι))
  | .mk _ _ _ fields => fields

def slots (node : Node ι) : List (Slot (Node ι)) :=
  node.fields.map Field.slot

def typeName (node : Node ι) : String :=
  node.kind.typeName

def field? (node : Node ι) (name : String) (arity : Arity) : Option (Field (Node ι)) :=
  node.fields.find? fun field => field.name == name && field.slot.arity == arity

/-- The fields in the order in which the type lists them; a type without rules of its own lists
them as they are. -/
def listed (node : Node ι) : List (Field (Node ι)) :=
  match node.kind.fields? with
  | some fields => fields.filterMap fun (name, arity) => node.field? name arity
  | none => node.fields

def edges (node : Node ι) : List (Edge (Node ι)) :=
  node.listed.flatMap fun field =>
    field.slot.entries.map fun (index, child) => ⟨field.name, index, child⟩

def children (node : Node ι) : List (Node ι) :=
  node.slots.flatMap Slot.children

/-- What holds of a node once it holds of its children holds of every node. -/
theorem induction {motive : Node ι → Prop}
    (step : ∀ node, (∀ child ∈ node.children, motive child) → motive node) (node : Node ι) :
    motive node := by
  refine @Node.rec ι motive
    (fun fields => ∀ field ∈ fields, ∀ child ∈ field.slot.children, motive child)
    (fun field => ∀ child ∈ field.slot.children, motive child)
    (fun slot => ∀ child ∈ slot.children, motive child)
    (fun child => ∀ node ∈ child, motive node)
    (fun children => ∀ child ∈ children, motive child)
    (fun children => ∀ child ∈ children, ∀ node ∈ child, motive node)
    ?_ ?_ ?_ ?_ ?_ ?_ ?_ ?_ ?_ ?_ ?_ ?_ ?_ ?_ node
  · intro id kind span fields ih
    apply step
    intro child hm
    obtain ⟨slot, hs, hslot⟩ := List.mem_flatMap.mp hm
    obtain ⟨field, hfields, rfl⟩ := List.mem_map.mp hs
    exact ih field hfields child hslot
  · exact fun _ hm => nomatch hm
  · intro field rest first others
    exact List.forall_mem_cons.mpr ⟨first, others⟩
  · exact fun _ _ ih => ih
  · intro child ih
    simpa [Slot.children] using ih
  · intro child ih
    simpa [Slot.children] using ih
  · exact fun _ ih => ih
  · intro children ih child hm
    obtain ⟨item, hitems, eq⟩ := List.mem_filterMap.mp hm
    exact ih item hitems child eq
  · exact fun _ hm => nomatch hm
  · intro child ih node hm
    cases hm
    exact ih
  · exact fun _ hm => nomatch hm
  · intro child rest first others
    exact List.forall_mem_cons.mpr ⟨first, others⟩
  · exact fun _ hm => nomatch hm
  · intro child rest first others
    exact List.forall_mem_cons.mpr ⟨first, others⟩

mutual

/-- Computes from the leaves up: `f` is given a node and, in its fields, what was computed for
the children. -/
def fold (f : Node ι → List (Field (Computed ι β)) → β) : Node ι → β
  | .mk id kind span fields => f (.mk id kind span fields) (foldFields f fields)

def foldFields (f : Node ι → List (Field (Computed ι β)) → β) :
    List (Field (Node ι)) → List (Field (Computed ι β))
  | [] => []
  | field :: rest => foldField f field :: foldFields f rest

def foldField (f : Node ι → List (Field (Computed ι β)) → β) :
    Field (Node ι) → Field (Computed ι β)
  | ⟨name, slot⟩ => ⟨name, foldSlot f slot⟩

def foldSlot (f : Node ι → List (Field (Computed ι β)) → β) :
    Slot (Node ι) → Slot (Computed ι β)
  | .one child => .one ⟨child, fold f child⟩
  | .maybe child => .maybe (foldOption f child)
  | .many children => .many (foldList f children)
  | .sparse children => .sparse (foldOptions f children)

def foldOption (f : Node ι → List (Field (Computed ι β)) → β) :
    Option (Node ι) → Option (Computed ι β)
  | none => none
  | some child => some ⟨child, fold f child⟩

def foldList (f : Node ι → List (Field (Computed ι β)) → β) :
    List (Node ι) → List (Computed ι β)
  | [] => []
  | child :: rest => ⟨child, fold f child⟩ :: foldList f rest

def foldOptions (f : Node ι → List (Field (Computed ι β)) → β) :
    List (Option (Node ι)) → List (Option (Computed ι β))
  | [] => []
  | child :: rest => foldOption f child :: foldOptions f rest

end

variable (f : Node ι → List (Field (Computed ι β)) → β)

def computed (node : Node ι) : Computed ι β :=
  ⟨node, node.fold f⟩

theorem foldOption_eq_map (child : Option (Node ι)) :
    foldOption f child = child.map (computed f) := by
  cases child <;> rfl

theorem foldList_eq_map (children : List (Node ι)) :
    foldList f children = children.map (computed f) := by
  induction children with
  | nil => rfl
  | cons child rest ih => rw [foldList, ih]; rfl

theorem foldOptions_eq_map (children : List (Option (Node ι))) :
    foldOptions f children = children.map (·.map (computed f)) := by
  induction children with
  | nil => rfl
  | cons child rest ih => rw [foldOptions, ih, foldOption_eq_map]; rfl

theorem foldField_eq_map (field : Field (Node ι)) :
    foldField f field = field.map (computed f) := by
  obtain ⟨name, slot⟩ := field
  cases slot <;>
    simp [foldField, foldSlot, Field.map, Slot.map, foldOption_eq_map, foldList_eq_map,
      foldOptions_eq_map, computed]

theorem foldFields_eq_map (fields : List (Field (Node ι))) :
    foldFields f fields = fields.map (·.map (computed f)) := by
  induction fields with
  | nil => rfl
  | cons field rest ih => rw [foldFields, ih, foldField_eq_map]; rfl

theorem fold_eq (node : Node ι) :
    node.fold f = f node (node.fields.map (·.map (computed f))) := by
  obtain ⟨id, kind, span, fields⟩ := node
  rw [fold, foldFields_eq_map]
  rfl

def postorder : Node ι → List (Node ι) :=
  fold fun node fields => (fields.flatMap (·.slot.children)).flatMap Computed.value ++ [node]

def preorder : Node ι → List (Node ι) :=
  fold fun node fields => node :: (fields.flatMap (·.slot.children)).flatMap Computed.value

def descendants (node : Node ι) : List (Node ι) :=
  node.preorder.tail

/-- Numbers the nodes from a given number on, each after its children. -/
def number : Node ι → StateM Nat (Node Nat) :=
  fold fun node fields => do
    let fields ← fields.mapM (·.mapM Computed.value)
    let id ← modifyGet fun next => (next, next + 1)
    return .mk id node.kind node.span fields

end Node

/-- A syntax tree; its nodes are numbered from zero on, each after its children. -/
structure Tree where
  content : Node Unit

namespace Tree

def root (tree : Tree) : Node Nat :=
  (tree.content.number.run 0).1

def nodes (tree : Tree) : Array (Node Nat) :=
  tree.root.postorder.toArray

def size (tree : Tree) : Nat :=
  tree.nodes.size

def node? (tree : Tree) (id : Nat) : Option (Node Nat) :=
  tree.nodes[id]?

def unknownTypes (tree : Tree) : List String :=
  let names := tree.root.postorder.filterMap fun node =>
    match node.kind with
    | .unknown name => some name
    | _ => none
  names.eraseDups.mergeSort (· ≤ ·)

end Tree

end SyntaxMarkup
