import SyntaxMarkup.Json.Ordered
import SyntaxMarkup.Proofs.Tree.Ancestors

namespace SyntaxMarkup

variable {α β ι κ : Type}

namespace Slot

/-- The child at a place in a slot. -/
def child? : Slot α → Option Nat → Option α
  | .one child, none => some child
  | .maybe child, none => child
  | .many children, some index => children[index]?
  | .sparse children, some index => (children[index]?).join
  | _, _ => none

theorem child?_of_mem {slot : Slot α} {index : Option Nat} {child : α}
    (hm : (index, child) ∈ slot.entries) : slot.child? index = some child := by
  cases slot with
  | one =>
    cases List.mem_singleton.mp hm
    rfl
  | maybe content =>
    cases content with
    | none => cases hm
    | some =>
      cases List.mem_singleton.mp hm
      rfl
  | many children =>
    obtain ⟨⟨item, place⟩, hentry, eq⟩ := List.mem_map.mp hm
    cases eq
    exact List.mem_zipIdx_iff_getElem?.mp hentry
  | sparse children =>
    obtain ⟨⟨item, place⟩, hentry, eq⟩ := List.mem_filterMap.mp hm
    cases item with
    | none => cases eq
    | some =>
      cases eq
      rw [child?, List.mem_zipIdx_iff_getElem?.mp hentry, Option.join_some]

theorem entries_map (f : α → β) (slot : Slot α) :
    (slot.map f).entries = slot.entries.map fun entry => (entry.1, f entry.2) := by
  cases slot with
  | one => rfl
  | maybe child => cases child <;> rfl
  | many children => simp [map, entries, List.zipIdx_map, Function.comp_def]
  | sparse children =>
    simp only [map, entries, List.zipIdx_map, List.filterMap_map, List.map_filterMap]
    refine List.filterMap_congr fun entry _ => ?_
    obtain ⟨item, index⟩ := entry
    cases item <;> rfl

end Slot

def Edge.map (f : α → β) (edge : Edge α) : Edge β :=
  ⟨edge.key, edge.index, f edge.child⟩

namespace Node

theorem regular_rebuild {node : Node ι} (hr : node.Regular) (number : ι → κ)
    (place : Option Span → Option Span) : (node.rebuild number place).Regular := by
  intro fields hl
  rw [kind_rebuild] at hl
  rw [signature_rebuild, hr fields hl]

theorem edges_rebuild {node : Node ι} (hr : node.Regular) (number : ι → κ)
    (place : Option Span → Option Span) :
    (node.rebuild number place).edges = node.edges.map (Edge.map (rebuild number place)) := by
  rw [edges, edges, listed_eq_fields hr, listed_eq_fields (regular_rebuild hr _ _),
    rebuild_eq, List.map_flatMap]
  change (node.fields.map (·.map (rebuild number place))).flatMap _ = _
  rw [List.flatMap_map]
  refine List.flatMap_congr fun field _ => ?_
  change (field.slot.map (rebuild number place)).entries.map _ = _
  rw [Slot.entries_map, List.map_map, List.map_map]
  rfl

/-- No two edges of a node whose fields have different names have the same key and place. -/
theorem eq_of_mem_edges {node : Node ι} (hr : node.Regular)
    (hd : (node.fields.map Field.name).Nodup) {first second : Edge (Node ι)}
    (hmem : first ∈ node.edges) (hmem' : second ∈ node.edges) (key : first.key = second.key)
    (index : first.index = second.index) : first = second := by
  rw [edges, listed_eq_fields hr] at hmem hmem'
  obtain ⟨field, hfield, hin⟩ := List.mem_flatMap.mp hmem
  obtain ⟨field', hfield', hin'⟩ := List.mem_flatMap.mp hmem'
  obtain ⟨⟨place, child⟩, he, rfl⟩ := List.mem_map.mp hin
  obtain ⟨⟨place', child'⟩, he', rfl⟩ := List.mem_map.mp hin'
  cases eq_of_nodup_map hd hfield hfield' key
  have hfound := Slot.child?_of_mem he
  have hfound' := Slot.child?_of_mem he'
  rw [show place = place' from index] at hfound ⊢
  cases hfound.symm.trans hfound'
  rfl

/-- The tree of a node without its numbers. -/
def bareTree {ι : Type} : Node ι → Node Unit :=
  rebuild (fun _ => ()) (fun place => place)

theorem bareTree_self (node : Node Unit) : node.bareTree = node := by
  induction node using induction with
  | step node ih =>
    obtain ⟨id, kind, span, fields⟩ := node
    exact rebuild_eq_self rfl ih

theorem bareTree_number (node : Node Unit) (start : Nat) :
    (node.number.run start).1.bareTree = node :=
  (rebuild_number _ node start).trans node.bareTree_self

/-- What is at and below a node, as a tree of its own. -/
def subtree (node : Node Nat) : Tree :=
  ⟨node.bareTree⟩

/-- A node of a tree is the root of its own tree with greater numbers. -/
theorem exists_shift_subtree {whole : Tree} {node : Node Nat} (hm : node ∈ whole.root.preorder) :
    ∃ first, node = node.subtree.root.shift first := by
  obtain ⟨part, first, rfl⟩ := exists_number_of_mem_preorder hm
  refine ⟨first, ?_⟩
  rw [subtree, Tree.root, bareTree_number]
  exact congrArg Prod.fst (part.number_add first 0)

end Node

section Parts

/-- The part of a reading at a place: the value itself, or one of its items. -/
def Reading.part? (reading : Reading) : Option Nat → Option Described
  | none => some reading.toDescribed
  | some index => reading.items.bind (·[index]?)

theorem exists_getElem?_of_forall₂ {R : α → β → Prop} {as : List α} {bs : List β}
    (h : List.Forall₂ R as bs) {index : Nat} {b : β} (hf : bs[index]? = some b) :
    ∃ a, as[index]? = some a ∧ R a b := by
  induction h generalizing index with
  | nil => cases hf
  | @cons a b' as bs first _ ih =>
    cases index with
    | zero =>
      cases hf
      exact ⟨a, rfl, first⟩
    | succ index => exact ih hf

theorem NodeObject.entry_eq_ok {object : NodeObject} {readings : List (String × Reading)}
    {name : String} {arity : Arity} {slot : Slot (Node Unit)}
    (h : object.slot readings name arity = .ok slot) {index : Option Nat} {child : Node Unit}
    (hf : slot.child? index = some child) :
    ∃ reading ∈ reading? readings name, ∃ part, reading.part? index = some part ∧
      part.tree = .ok child := by
  unfold NodeObject.slot at h
  split at h
  case h_1 =>
    cases h
    cases index <;> cases hf
  case h_2 => cases h
  case h_3 reading hk =>
    obtain ⟨node, hmade, rfl⟩ := map_eq_ok h
    cases index with
    | none =>
      cases hf
      exact ⟨reading, hk, _, rfl, child_eq_ok hmade⟩
    | some => cases hf
  case h_4 reading hk =>
    obtain ⟨node, hmade, rfl⟩ := map_eq_ok h
    cases index with
    | none =>
      cases hf
      exact ⟨reading, hk, _, rfl, child_eq_ok hmade⟩
    | some => cases hf
  case h_5 reading hk =>
    obtain ⟨items, hl, h⟩ := bind_eq_ok h
    obtain ⟨nodes, hmade, h⟩ := bind_eq_ok h
    cases h
    cases index with
    | none => cases hf
    | some index =>
      obtain ⟨part, hindex, hj⟩ := exists_getElem?_of_forall₂ (mapM_eq_ok hmade) hf
      refine ⟨reading, hk, part, ?_, child_eq_ok hj⟩
      rw [Reading.part?, items_eq_ok hl, Option.bind_some, hindex]
  case h_6 reading hk =>
    obtain ⟨items, hl, h⟩ := bind_eq_ok h
    obtain ⟨nodes, hmade, h⟩ := bind_eq_ok h
    cases h
    cases index with
    | none => cases hf
    | some index =>
      obtain ⟨part, hindex, hj⟩ :=
        exists_getElem?_of_forall₂ (mapM_eq_ok hmade) (Option.join_eq_some_iff.mp hf)
      refine ⟨reading, hk, part, ?_, sparseChild_eq_ok hj⟩
      rw [Reading.part?, items_eq_ok hl, Option.bind_some, hindex]

end Parts

namespace Json

/-- What stands in a field of an object, or at a place in the list there. -/
def step? (value : Json) : String × Option Nat → Option Json
  | (key, none) => value.member? key
  | (key, some index) => do (← (← value.member? key).asArray?)[index]?

def follow? (value : Json) (steps : List (String × Option Nat)) : Option Json :=
  steps.foldlM step? value

theorem follow?_concat (value : Json) (steps : List (String × Option Nat))
    (step : String × Option Nat) :
    value.follow? (steps ++ [step]) = (value.follow? steps).bind (·.step? step) := by
  rw [follow?, List.foldlM_append]
  refine congrArg _ (funext fun part => ?_)
  simp

theorem lookup_readMembers (members : List (String × Json)) (name : String) :
    (readMembers members).lookup name = (members.lookup name).map reading := by
  induction members with
  | nil => rfl
  | cons member rest ih =>
    obtain ⟨first, value⟩ := member
    rw [readMembers, List.lookup_cons, List.lookup_cons, ih]
    cases name == first <;> rfl

theorem readItems_eq_map (items : List Json) :
    readItems items = items.map fun item => item.reading.toDescribed := by
  induction items with
  | nil => rfl
  | cons item rest ih => rw [readItems, ih, List.map_cons]

theorem exists_object_of_tree {value : Json} {node : Node Unit}
    (hj : value.reading.tree = .ok node) :
    ∃ object : NodeObject, value = .object object.members ∧
      object.members.lookup "type" = some (.string object.typeName) ∧
      object.node (readMembers object.members) = .ok node := by
  cases value with
  | object members =>
    cases hd : (Json.object members).asNode? with
    | none => simp [reading, hd] at hj
    | some object =>
      have hmade : object.node (readMembers members) = .ok node := by
        simpa [reading, hd] using hj
      rw [asNode?] at hd
      split at hd
      next typeName hf =>
        cases hd
        exact ⟨⟨typeName, members⟩, rfl, hf, hmade⟩
      next => cases hd
  | null | bool | number | string | array => cases hj

theorem part?_reading {value : Json} {index : Option Nat} {part : Described}
    (hf : value.reading.part? index = some part) :
    ∃ inner : Json, part = inner.reading.toDescribed ∧
      ∀ key members, List.lookup key members = some value →
        (Json.object members).step? (key, index) = some inner := by
  cases index with
  | none =>
    cases hf
    exact ⟨value, rfl, fun key members hk => hk⟩
  | some index =>
    obtain ⟨items, hl, hindex⟩ := Option.bind_eq_some_iff.mp hf
    cases value with
    | array inside =>
      cases hl
      rw [readItems_eq_map, List.getElem?_map] at hindex
      obtain ⟨inner, hi, rfl⟩ := Option.map_eq_some_iff.mp hindex
      refine ⟨inner, rfl, fun key members hk => ?_⟩
      have member : (Json.object members).member? key = some (.array inside) := hk
      rw [step?, member]
      exact hi
    | null | bool | number | string | object => cases hl

/-- Each edge of a lowered node leads to a value that the child is lowered from. -/
theorem exists_step_of_edge {value : Json} {node : Node Unit}
    (hj : value.reading.tree = .ok node) {edge : Edge (Node Unit)}
    (he : edge ∈ node.edges) :
    ∃ part, value.step? (edge.key, edge.index) = some part ∧
      part.reading.tree = .ok edge.child := by
  obtain ⟨object, rfl, -, hmade⟩ := exists_object_of_tree hj
  obtain ⟨-, children, -⟩ := NodeObject.node_eq_ok hmade
  rw [Node.edges, Node.listed_eq_fields (Node.regular_of_node hmade)] at he
  obtain ⟨field, hfields, hfield⟩ := List.mem_flatMap.mp he
  obtain ⟨⟨index, child⟩, hentry, rfl⟩ := List.mem_map.mp hfield
  obtain ⟨entry, -, name, slot⟩ :=
    exists_of_forall₂ (NodeObject.childFields_eq_ok children) hfields
  obtain ⟨reading, hk, part, hindex, tree⟩ :=
    NodeObject.entry_eq_ok slot (Slot.child?_of_mem hentry)
  obtain ⟨hk, -⟩ := Option.filter_eq_some_iff.mp hk
  rw [lookup_readMembers] at hk
  obtain ⟨inside, member, rfl⟩ := Option.map_eq_some_iff.mp hk
  obtain ⟨inner, rfl, hreached⟩ := part?_reading hindex
  rw [name] at member
  exact ⟨inner, hreached _ _ member, tree⟩

theorem ordered_of_lookup {members : Members} {key : String} {value : Json}
    (ordered : (object members).Ordered) (hf : members.lookup key = some value) :
    value.Ordered := by
  obtain ⟨before, rest, eq, -⟩ := List.lookup_eq_some_iff.mp hf
  exact valuesOrdered_iff.mp ordered.2 (key, value) (by simp [eq])

theorem ordered_of_step? {value part : Json} {step : String × Option Nat}
    (ordered : value.Ordered) (hf : value.step? step = some part) : part.Ordered := by
  obtain ⟨key, index⟩ := step
  have member {inside : Json} (hf : value.member? key = some inside) : inside.Ordered := by
    obtain ⟨members, hobject, hf⟩ := Option.bind_eq_some_iff.mp hf
    cases value with
    | object =>
      cases hobject
      exact ordered_of_lookup ordered hf
    | null | bool | number | string | array => cases hobject
  cases index with
  | none => exact member hf
  | some index =>
    obtain ⟨inside, hf, hindex⟩ := Option.bind_eq_some_iff.mp hf
    obtain ⟨items, ha, hindex⟩ := Option.bind_eq_some_iff.mp hindex
    have ordered := member hf
    cases inside with
    | array =>
      cases ha
      exact itemsOrdered_iff.mp ordered part (List.mem_of_getElem? hindex)
    | null | bool | number | string | object => cases ha

/-- Whether a node and what is below it is what a value is lowered to, numbers aside. -/
def Describes (value : Json) (node : Node Nat) : Prop :=
  value.reading.tree = .ok node.bareTree

variable {value : Json} {node : Node Nat}

theorem Describes.exists_step (hdes : value.Describes node) (hr : node.Regular)
    {edge : Edge (Node Nat)} (he : edge ∈ node.edges) :
    ∃ part, value.step? (edge.key, edge.index) = some part ∧ part.Describes edge.child := by
  have bare : edge.map Node.bareTree ∈ node.bareTree.edges := by
    rw [Node.bareTree, Node.edges_rebuild hr]
    exact List.mem_map_of_mem he
  exact exists_step_of_edge hdes bare

theorem Describes.member_type (hdes : value.Describes node) :
    value.member? "type" = some (.string node.typeName) := by
  obtain ⟨object, rfl, hf, hmade⟩ := exists_object_of_tree hdes
  obtain ⟨kind, -, -⟩ := NodeObject.node_eq_ok hmade
  have hn : node.kind.typeName = object.typeName := by
    rw [Node.bareTree, Node.kind_rebuild] at kind
    exact (object.fits_form node.kind kind).1
  exact hf.trans (congrArg (some ∘ Json.string) hn.symm)

/-- The fields with children of a node of unknown type are in the order of the keys. -/
theorem pairwise_unknownChildren {object : NodeObject} (ordered : object.members.Ordered) :
    object.unknownChildren.Pairwise fun first second => first.1 < second.1 := by
  refine (List.pairwise_map.mp ordered).filterMap _ fun member other less => ?_
  have name {member : String × Json} {entry : String × Arity}
      (h : (if member.1 = "type" ∨ member.1 ∈ NodeObject.positionFields then none
        else (NodeObject.arity? member.2).map (member.1, ·)) = some entry) :
      entry.1 = member.1 := by
    split at h
    · cases h
    · obtain ⟨arity, -, rfl⟩ := Option.map_eq_some_iff.mp h
      rfl
  intro entry h entry' h'
  rwa [name h, name h']

theorem nodup_unknownChildren {object : NodeObject} (ordered : object.members.Ordered) :
    (object.unknownChildren.map Prod.fst).Nodup := by
  refine List.pairwise_map.mpr ((pairwise_unknownChildren ordered).imp fun {entry other} less => ?_)
  exact fun same => String.lt_irrefl _ (same ▸ less)

theorem Describes.nodup_names (hdes : value.Describes node) (ordered : value.Ordered) :
    (node.fields.map Field.name).Nodup := by
  obtain ⟨object, rfl, -, hmade⟩ := exists_object_of_tree hdes
  obtain ⟨kind, -, -⟩ := NodeObject.node_eq_ok hmade
  have signature := NodeObject.signature_eq hmade
  rw [Node.bareTree, Node.kind_rebuild] at kind
  rw [Node.bareTree, Node.signature_rebuild, (object.fits_form node.kind kind).2] at signature
  have names : node.fields.map Field.name = node.signature.map Prod.fst := by
    rw [Node.signature, List.map_map]
    rfl
  rw [names, signature]
  cases hl : node.kind.fields? with
  | none => exact nodup_unknownChildren ordered.1
  | some fields => exact Kind.fields?_nodup hl

theorem Describes.ofJson_subtree (hdes : value.Describes node) :
    Tree.ofJson value = .ok node.subtree := by
  rw [Tree.ofJson, hdes]
  rfl

/-- A numbered node is that of the tree of the value that describes it, with greater numbers. -/
theorem Describes.exists_tree (hdes : value.Describes node) {whole : Tree}
    (hm : node ∈ whole.root.preorder) :
    ∃ tree, Tree.ofJson value = .ok tree ∧ ∃ first, node = tree.root.shift first :=
  ⟨node.subtree, hdes.ofJson_subtree, Node.exists_shift_subtree hm⟩

end Json

/-- The keys and places of the links from the root down to a node. -/
inductive AnnotatedTree.Address (tree : AnnotatedTree) : Nat → List (String × Option Nat) → Prop
  | root {id : Nat} (top : tree.link? id = none) : Address tree id []
  | child {id : Nat} {link : ParentLink} {steps : List (String × Option Nat)}
      (linked : tree.link? id = some link) (above : Address tree link.parent steps) :
      Address tree id (steps ++ [(link.key, link.index)])

theorem AnnotatedTree.address_unique {tree : AnnotatedTree} {id : Nat}
    {steps other : List (String × Option Nat)} (h : tree.Address id steps)
    (h' : tree.Address id other) : steps = other := by
  induction h generalizing other with
  | root top =>
    cases h' with
    | root => rfl
    | child hlinked => cases top.symm.trans hlinked
  | child hlinked _ ih =>
    cases h' with
    | root top => cases top.symm.trans hlinked
    | child hlinked' above =>
      cases hlinked.symm.trans hlinked'
      rw [ih above]

namespace Tree

variable {tree : Tree}

theorem describes_root {value : Json} (h : Tree.ofJson value = .ok tree) :
    value.Describes tree.root := by
  obtain ⟨content, hj, rfl⟩ := map_eq_ok h
  rw [Json.Describes, root, Node.bareTree_number]
  exact hj

/-- The address of a node leads to a value that describes it. -/
theorem exists_address {value : Json} (h : Tree.ofJson value = .ok tree) {id : Nat}
    (hk : id < tree.size) : ∃ steps, tree.annotate.Address id steps ∧
      ∃ part, value.follow? steps = some part ∧ (value.Ordered → part.Ordered) ∧
        ∀ node, tree.node? id = some node → part.Describes node := by
  have hr := regular_of_ofJson h
  refine ancestry_induction hr (motive := fun id => ∃ steps,
    tree.annotate.Address id steps ∧ ∃ part, value.follow? steps = some part ∧
      (value.Ordered → part.Ordered) ∧ ∀ node, tree.node? id = some node → part.Describes node)
    ?_ ?_ hk
  · refine ⟨[], .root (link?_root hr), value, rfl, fun ordered => ordered,
      fun node hf => ?_⟩
    cases (node?_id tree.root.self_mem_preorder).symm.trans hf
    exact describes_root h
  · rintro id link hl ⟨steps, above, part, hreached, ordered, hd⟩
    obtain ⟨node, hm, edge, he, hc, rfl, rfl⟩ := exists_edge_of_link hr hl
    obtain ⟨inner, step, hdes⟩ :=
      (hd node (node?_id hm)).exists_step (hr node hm) he
    refine ⟨_, .child hl above, inner, ?_, fun all => Json.ordered_of_step? (ordered all) step,
      fun child hf => ?_⟩
    · rw [Json.follow?_concat, hreached]
      exact step
    · have ht := Node.mem_preorder_trans hm (Node.child_mem_preorder hc)
      cases (node?_id ht).symm.trans hf
      exact hdes

/-- Where the fields of each node have different names, different nodes have different addresses. -/
theorem eq_of_address_of_nodup (hr : tree.Regular)
    (hd : ∀ node ∈ tree.root.preorder, (node.fields.map Field.name).Nodup) {id other : Nat}
    {steps : List (String × Option Nat)} (hknown : id < tree.size) (hknown' : other < tree.size)
    (address : tree.annotate.Address id steps) (address' : tree.annotate.Address other steps) :
    id = other := by
  induction address generalizing other with
  | root top =>
    generalize eq : ([] : List (String × Option Nat)) = steps at address'
    cases address' with
    | root top' =>
      rw [(link?_eq_none_iff hr hknown).mp top, (link?_eq_none_iff hr hknown').mp top']
    | child => simp at eq
  | @child id link steps hlinked above ih =>
    generalize eq : steps ++ [(link.key, link.index)] = all at address'
    cases address' with
    | root => simp at eq
    | @child _ link' steps' hlinked' above' =>
      obtain ⟨rfl, same⟩ := List.append_inj' eq rfl
      obtain ⟨key, index⟩ := Prod.mk.inj (List.singleton_inj.mp same)
      have parents := ih (link_bounds hr hlinked).2 (link_bounds hr hlinked').2 above'
      obtain ⟨node, hmem, edge, hedge, -, rfl, rfl⟩ := exists_edge_of_link hr hlinked
      obtain ⟨node', hmem', edge', hedge', -, rfl, rfl⟩ := exists_edge_of_link hr hlinked'
      have sameNode : node = node' := by
        have hf := node?_id hmem
        rw [show node.id = node'.id from parents, node?_id hmem'] at hf
        exact (Option.some.inj hf).symm
      subst sameNode
      rw [Node.eq_of_mem_edges (hr node hmem) (hd node hmem) hedge hedge' key index]

/-- Where each key of an object counts once, no two edges of a node have the same address. -/
theorem eq_of_address {value : Json} (h : Tree.ofJson value = .ok tree) (ordered : value.Ordered)
    {id other : Nat} {steps : List (String × Option Nat)} (hknown : id < tree.size)
    (hknown' : other < tree.size) (address : tree.annotate.Address id steps)
    (address' : tree.annotate.Address other steps) : id = other := by
  refine eq_of_address_of_nodup (regular_of_ofJson h) (fun node hm => ?_) hknown hknown' address
    address'
  obtain ⟨-, -, part, -, partOrdered, hd⟩ := exists_address h (id_lt_size hm)
  exact (hd node (node?_id hm)).nodup_names (partOrdered ordered)

section Subtree

variable {subtree : Tree} {first : Nat}

theorem id_shift_root (subtree : Tree) (first : Nat) :
    (subtree.root.shift first).id + 1 = first + subtree.size := by
  rw [← subtree.root_id, Node.shift, Node.rebuild_eq]
  exact Nat.add_assoc first subtree.root.id 1

theorem mem_preorder_shift (subtree : Tree) (first : Nat) {id : Nat} :
    id ∈ (subtree.root.shift first).preorder.map Node.id ↔
      first ≤ id ∧ id < first + subtree.size := by
  have shifted (node : Node Nat) : (node.shift first).id = first + node.id := by
    rw [Node.shift, Node.rebuild_eq]
    rfl
  rw [Node.shift, Node.preorder_rebuild, List.map_map]
  constructor
  · intro hm
    obtain ⟨node, inside, rfl⟩ := List.mem_map.mp hm
    have := id_lt_size inside
    have eq : (Node.id ∘ Node.rebuild (first + ·) fun place => place) node = first + node.id :=
      shifted node
    omega
  · rintro ⟨le, lt⟩
    obtain ⟨node, inside, eq, -⟩ := exists_node (show id - first < subtree.size by omega)
    refine List.mem_map.mpr ⟨node, inside, (shifted node).trans ?_⟩
    omega

/-- The tree that a subtree is on its own has the nodes of the subtree, with smaller numbers. -/
theorem node?_shift (hm : subtree.root.shift first ∈ tree.root.preorder) {id : Nat}
    (hk : id < subtree.size) :
    tree.node? (first + id) = (subtree.node? id).map (Node.shift first) := by
  obtain ⟨node, inside, rfl, hf⟩ := exists_node hk
  rw [hf, Option.map_some, node?_eq_some_iff]
  constructor
  · refine Node.mem_preorder_trans hm ?_
    rw [Node.shift, Node.preorder_rebuild]
    exact List.mem_map_of_mem inside
  · rw [Node.shift, Node.rebuild_eq]
    rfl

end Subtree

/-- The links of a lowered tree are addresses in its JSON value. The links from the root down to a
node lead to an object of the type of the node, and that object on its own is lowered to the
subtree of the node with its numbers counted from zero. So no two nodes have the same links if the
keys of each object are in order, as they are in every value that is read. -/
theorem address_of_ofJson {value : Json} (h : Tree.ofJson value = .ok tree) :
    (∀ id < tree.size, ∃ steps, (∀ other, tree.annotate.Address id other ↔ other = steps) ∧
      ∃ part subtree first, value.follow? steps = some part ∧
        part.member? "type" = some (.string (tree.annotate.typeName id)) ∧
        Tree.ofJson part = .ok subtree ∧ first + subtree.size = id + 1 ∧
        (∀ other, tree.Below id other ↔ first ≤ other ∧ other ≤ id) ∧
        ∀ i < subtree.size, tree.node? (first + i) = (subtree.node? i).map (Node.shift first)) ∧
    (value.Ordered → ∀ id < tree.size, ∀ other < tree.size, ∀ steps,
      tree.annotate.Address id steps → tree.annotate.Address other steps → id = other) := by
  refine ⟨fun id hknown => ?_, fun ordered id hknown other hknown' steps address address' =>
    eq_of_address h ordered hknown hknown' address address'⟩
  obtain ⟨steps, address, part, hreached, -, hd⟩ := exists_address h hknown
  obtain ⟨node, hm, rfl, hf⟩ := exists_node hknown
  have hdes := hd node hf
  obtain ⟨subtree, hj, first, shifted⟩ := hdes.exists_tree hm
  have last : node.id + 1 = first + subtree.size := shifted ▸ id_shift_root subtree first
  refine ⟨steps, fun other => ⟨fun h' => AnnotatedTree.address_unique h' address,
    fun eq => eq ▸ address⟩, part, subtree, first, hreached, ?_, hj, last.symm,
    fun other => ?_, fun i inside => ?_⟩
  · rw [typeName_annotate hf]
    exact hdes.member_type
  · rw [below_iff (regular_of_ofJson h) hm, shifted, mem_preorder_shift, ← shifted]
    omega
  · exact node?_shift (shifted ▸ hm) inside

theorem ordered_sparseSample : sparseSample.Ordered := by
  have identifier (name : String) : (Json.ofNode "Identifier" [("name", .string name)]).Ordered :=
    Json.ordered_ofMembers ⟨trivial, trivial, trivial⟩
  have element : (Json.ofNode "JSXElement"
      [("children", .array [.null, .ofNode "Identifier" [("name", .string "b")]])]).Ordered :=
    Json.ordered_ofMembers ⟨trivial, ⟨trivial, identifier "b", trivial⟩, trivial⟩
  exact Json.ordered_ofMembers ⟨trivial, ⟨Json.ordered_ofMembers ⟨trivial, Json.ordered_ofMembers
    ⟨trivial, ⟨identifier "a", trivial, element, trivial⟩, trivial⟩, trivial⟩, trivial⟩, trivial⟩

/-- The element in the third place of the list, with a hole before it and one inside. -/
theorem address_of_sparseSample :
    ∃ tree part subtree first, ofJson sparseSample = .ok tree ∧ sparseSample.Ordered ∧
      sparseSample.follow? [("body", some 0), ("expression", none), ("elements", some 2)] =
        some part ∧
      part.member? "type" = some (.string "JSXElement") ∧ ofJson part = .ok subtree ∧
      first + subtree.size = 3 ∧
      ∀ other < 6, tree.annotate.Address other
        [("body", some 0), ("expression", none), ("elements", some 2)] → other = 2 := by
  obtain ⟨tree, hj, facts⟩ := exists_of_ofJson
    (f := fun tree => (tree.size, tree.annotate.typeName 2, [2, 3, 4, 5].map tree.annotate.link?))
    (b := (6, "JSXElement", [some ⟨3, "elements", some 2⟩, some ⟨4, "expression", none⟩,
      some ⟨5, "body", some 0⟩, none]))
    (by decide +kernel : (ofJson sparseSample).toOption.map _ = some _)
  simp only [Prod.mk.injEq, List.map_cons, List.cons.injEq] at facts
  obtain ⟨size, name, element, list, statement, top, -⟩ := facts
  have address : tree.annotate.Address 2
      [("body", some 0), ("expression", none), ("elements", some 2)] :=
    .child element (.child list (.child statement (.root top)))
  obtain ⟨addresses, hd⟩ := address_of_ofJson hj
  obtain ⟨steps, only, part, subtree, first, hreached, hn, again, last, -⟩ :=
    addresses 2 (by omega)
  rw [← (only _).mp address] at hreached
  rw [name] at hn
  refine ⟨tree, part, subtree, first, hj, ordered_sparseSample, hreached, hn, again, last,
    fun other hk address' => ?_⟩
  exact hd ordered_sparseSample other (by omega) 2 (by omega) _ address' address

end Tree

end SyntaxMarkup
