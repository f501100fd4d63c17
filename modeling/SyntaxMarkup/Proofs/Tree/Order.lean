import SyntaxMarkup.Proofs.Tree.Regular
import Mathlib.Logic.Relation

namespace SyntaxMarkup

namespace Node

/-- The numbers of the nodes at and below a node are consecutive, each after those below it. -/
def NumberedFrom (start : Nat) (node : Node Nat) : Prop :=
  node.postorder.map id = List.range' start node.size

theorem NumberedFrom.id_eq {start : Nat} {node : Node Nat} (h : node.NumberedFrom start) :
    node.id + 1 = start + node.size := by
  have positive := node.size_pos
  obtain ⟨size, eq⟩ : ∃ size, node.size = size + 1 := ⟨node.size - 1, by omega⟩
  rw [NumberedFrom, postorder_eq, eq, List.range'_concat, List.map_append] at h
  have last := List.append_inj_right' h rfl
  simp only [List.map_cons, List.map_nil, List.cons.injEq, and_true, Nat.one_mul] at last
  omega

theorem NumberedFrom.child {start : Nat} {node child : Node Nat} (h : node.NumberedFrom start)
    (hc : child ∈ node.children) :
    ∃ first, start ≤ first ∧ child.NumberedFrom first ∧ first + child.size < start + node.size := by
  obtain ⟨before, after, eq⟩ := List.append_of_mem hc
  have split : (before.flatMap postorder).map id ++ (child.postorder.map id ++
      ((after.flatMap postorder).map id ++ [node.id])) = List.range' start node.size := by
    rw [← h, node.postorder_eq, eq]
    simp
  obtain ⟨skipped, le, -, rest⟩ := List.range'_eq_append_iff.mp split.symm
  obtain ⟨size, le', consecutive, last⟩ := List.range'_eq_append_iff.mp rest.symm
  have same : size = child.size := by
    have lengths := congrArg List.length consecutive
    rwa [List.length_map, length_postorder, List.length_range', eq_comm] at lengths
  have lengths := congrArg List.length last
  simp only [List.length_append, List.length_singleton, List.length_range'] at lengths
  refine ⟨start + skipped, by omega, ?_, by omega⟩
  rw [NumberedFrom, ← same]
  simpa using consecutive

theorem NumberedFrom.below {start : Nat} {node below : Node Nat} (h : node.NumberedFrom start)
    (hm : below ∈ node.preorder) :
    ∃ first, start ≤ first ∧ below.NumberedFrom first ∧
      first + below.size ≤ start + node.size := by
  induction node using induction generalizing start with
  | step node ih =>
    rw [preorder_eq] at hm
    rcases List.mem_cons.mp hm with rfl | hm
    · exact ⟨start, le_rfl, h, le_rfl⟩
    · obtain ⟨child, hc, hm⟩ := List.mem_flatMap.mp hm
      obtain ⟨first, le, hnum, bound⟩ := h.child hc
      obtain ⟨lowest, le', hnum', bound'⟩ := ih child hc hnum hm
      exact ⟨lowest, by omega, hnum', by omega⟩

/-- Going through the children of all nodes goes through all nodes below the root. -/
theorem flatMap_children_perm {ι : Type} (node : Node ι) :
    (node.preorder.flatMap children).Perm node.descendants := by
  induction node using induction with
  | step node ih =>
    rw [preorder_eq, descendants_eq, List.flatMap_cons, List.flatMap_assoc]
    have each : (node.children.flatMap fun child => child.preorder.flatMap children).Perm
        (node.children.flatMap fun child => child.descendants) := List.Perm.flatMap_left _ ih
    have heads := List.map_append_flatMap_perm node.children (fun child => child) descendants
    rw [List.map_id'] at heads
    refine (each.append_left node.children).trans (heads.trans ?_)
    refine List.Perm.of_eq (List.flatMap_congr fun child _ => ?_)
    rw [descendants_eq, preorder_eq]

end Node

namespace Tree

theorem numberedFrom_zero (tree : Tree) : tree.root.NumberedFrom 0 := by
  have hcounted := (Node.number_postorder tree.content 0).1
  have lengths := congrArg List.length hcounted
  rw [List.length_map, Node.length_postorder, List.length_range'] at lengths
  rw [← lengths] at hcounted
  exact hcounted

theorem size_eq (tree : Tree) : tree.size = tree.root.size := by
  rw [size, nodes, List.size_toArray, Node.length_postorder]

theorem map_id_postorder (tree : Tree) :
    tree.root.postorder.map Node.id = List.range tree.size := by
  rw [tree.numberedFrom_zero, size_eq, List.range_eq_range']

theorem root_id (tree : Tree) : tree.root.id + 1 = tree.size := by
  rw [tree.numberedFrom_zero.id_eq, size_eq, Nat.zero_add]

theorem node?_eq_some_iff {tree : Tree} {id : Nat} {node : Node Nat} :
    tree.node? id = some node ↔ node ∈ tree.root.preorder ∧ node.id = id := by
  rw [node?, nodes, List.getElem?_toArray, ← tree.root.postorder_perm_preorder.mem_iff]
  exact getElem?_eq_some_iff_of_range tree.map_id_postorder

theorem node?_id {tree : Tree} {node : Node Nat} (hm : node ∈ tree.root.preorder) :
    tree.node? node.id = some node :=
  node?_eq_some_iff.mpr ⟨hm, rfl⟩

theorem exists_node {tree : Tree} {id : Nat} (h : id < tree.size) :
    ∃ node ∈ tree.root.preorder, node.id = id ∧ tree.node? id = some node := by
  have hf : tree.node? id = some tree.nodes[id] := by
    rw [node?, Array.getElem?_eq_getElem h]
  obtain ⟨hm, eq⟩ := node?_eq_some_iff.mp hf
  exact ⟨_, hm, eq, hf⟩

def childIds (tree : Tree) (id : Nat) : List Nat :=
  (tree.node? id).elim [] fun node => node.edges.map (·.child.id)

mutual

/-- The numbers met on a walk from a number to those of its children, each after those of its
children. -/
inductive Visits (tree : Tree) : Nat → List Nat → Prop
  | node {id : Nat} {below : List Nat} (known : id < tree.size)
      (children : VisitsAll tree (tree.childIds id) below) : Visits tree id (below ++ [id])

inductive VisitsAll (tree : Tree) : List Nat → List Nat → Prop
  | nil : VisitsAll tree [] []
  | cons {id : Nat} {ids first others : List Nat} (head : Visits tree id first)
      (tail : VisitsAll tree ids others) : VisitsAll tree (id :: ids) (first ++ others)

end

def Below (tree : Tree) : Nat → Nat → Prop :=
  Relation.ReflTransGen fun parent child => child ∈ tree.childIds parent

section Regular

variable {tree : Tree}

theorem childIds_eq (hr : tree.Regular) {node : Node Nat} (hm : node ∈ tree.root.preorder) :
    tree.childIds node.id = node.children.map Node.id := by
  rw [childIds, node?_id hm, ← Node.map_child_edges (hr node hm), List.map_map]
  rfl

theorem id_lt_size {node : Node Nat} (hm : node ∈ tree.root.preorder) : node.id < tree.size := by
  obtain ⟨first, -, hn, bound⟩ := tree.numberedFrom_zero.below hm
  have := hn.id_eq
  rw [size_eq]
  omega

/-- The walk from a node meets the numbers of its subtree. -/
theorem visits_of_mem (hr : tree.Regular) {node : Node Nat} (hm : node ∈ tree.root.preorder) :
    tree.Visits node.id (node.postorder.map Node.id) := by
  induction node using Node.induction with
  | step node ih =>
    rw [Node.postorder_eq, List.map_append]
    refine .node (id_lt_size hm) ?_
    rw [childIds_eq hr hm]
    have ht : ∀ child ∈ node.children, child ∈ tree.root.preorder := fun child hc =>
      Node.mem_preorder_trans hm (Node.child_mem_preorder hc)
    generalize node.children = children at ih ht
    induction children with
    | nil => exact .nil
    | cons child rest others =>
      rw [List.map_cons, List.flatMap_cons, List.map_append]
      refine .cons (ih child List.mem_cons_self (ht child List.mem_cons_self)) (others ?_ ?_)
      · exact fun other h => ih other (List.mem_cons_of_mem _ h)
      · exact fun other h => ht other (List.mem_cons_of_mem _ h)

theorem eq_of_visits (hr : tree.Regular) {node : Node Nat} (hm : node ∈ tree.root.preorder)
    {ids : List Nat} (h : tree.Visits node.id ids) : ids = node.postorder.map Node.id := by
  induction node using Node.induction generalizing ids with
  | step node ih =>
    obtain ⟨-, walk⟩ := h
    rename_i below
    rw [childIds_eq hr hm] at walk
    have ht : ∀ child ∈ node.children, child ∈ tree.root.preorder := fun child hc =>
      Node.mem_preorder_trans hm (Node.child_mem_preorder hc)
    have all : below = (node.children.flatMap Node.postorder).map Node.id := by
      generalize node.children = children at ih ht walk
      induction children generalizing below with
      | nil =>
        cases walk
        rfl
      | cons child rest others =>
        cases walk with
        | @cons _ _ first later head tail =>
          have firstEq := ih child List.mem_cons_self (ht child List.mem_cons_self) head
          have laterEq := others (fun other h => ih other (List.mem_cons_of_mem _ h))
            (fun other h => ht other (List.mem_cons_of_mem _ h)) tail
          rw [firstEq, laterEq, List.flatMap_cons, List.map_append]
    rw [all, Node.postorder_eq, List.map_append]
    rfl

/-- What is reached from a node are the nodes at and below it. -/
theorem below_iff (hr : tree.Regular) {node : Node Nat} (hm : node ∈ tree.root.preorder)
    {id : Nat} : tree.Below node.id id ↔ id ∈ node.preorder.map Node.id := by
  constructor
  · intro h
    induction h with
    | refl => exact List.mem_map_of_mem node.self_mem_preorder
    | @tail middle last _ step ih =>
      obtain ⟨parent, inside, rfl⟩ := List.mem_map.mp ih
      rw [childIds_eq hr (Node.mem_preorder_trans hm inside)] at step
      obtain ⟨child, hc, rfl⟩ := List.mem_map.mp step
      exact List.mem_map_of_mem (Node.mem_preorder_trans inside (Node.child_mem_preorder hc))
  · intro h
    obtain ⟨below, inside, rfl⟩ := List.mem_map.mp h
    induction node using Node.induction with
    | step node ih =>
      rw [Node.preorder_eq] at inside
      rcases List.mem_cons.mp inside with rfl | inside
      · exact .refl
      · obtain ⟨child, hc, inside⟩ := List.mem_flatMap.mp inside
        have childMem := Node.mem_preorder_trans hm (Node.child_mem_preorder hc)
        refine .head ?_ (ih child hc childMem inside (List.mem_map_of_mem inside))
        rw [childIds_eq hr hm]
        exact List.mem_map_of_mem hc

theorem childIds_perm (hr : tree.Regular) :
    ((List.range tree.size).flatMap tree.childIds).Perm (List.range tree.root.id) := by
  have hl : (List.range tree.size).flatMap tree.childIds =
      (tree.root.postorder.flatMap Node.children).map Node.id := by
    rw [← map_id_postorder, List.flatMap_map, List.map_flatMap]
    refine List.flatMap_congr fun node hm => childIds_eq hr ?_
    exact tree.root.postorder_perm_preorder.mem_iff.mp hm
  have below : (tree.root.postorder.flatMap Node.children).Perm tree.root.descendants :=
    (tree.root.postorder_perm_preorder.flatMap_right _).trans tree.root.flatMap_children_perm
  have ids : (tree.root.descendants.map Node.id ++ [tree.root.id]).Perm
      (List.range tree.root.id ++ [tree.root.id]) := by
    have all := tree.root.postorder_perm_preorder.symm.map Node.id
    rw [map_id_postorder, ← root_id, List.range_succ, Node.preorder_eq_cons,
      List.map_cons] at all
    exact (List.perm_append_singleton _ _).trans all
  rw [hl]
  exact (below.map Node.id).trans ((List.perm_append_right_iff _).mp ids)

/-- The nodes at and below a node have consecutive numbers, of which its own is the last. -/
theorem exists_interval (hr : tree.Regular) {id : Nat} (hk : id < tree.size) :
    ∃ first ≤ id, tree.Visits id (List.range' first (id + 1 - first)) ∧
      ∀ other, tree.Below id other ↔ first ≤ other ∧ other ≤ id := by
  obtain ⟨node, hm, rfl, -⟩ := exists_node hk
  obtain ⟨first, -, hn, -⟩ := tree.numberedFrom_zero.below hm
  have last := hn.id_eq
  have positive := node.size_pos
  have size : node.size = node.id + 1 - first := by omega
  refine ⟨first, by omega, ?_, fun other => ?_⟩
  · rw [← size, ← hn]
    exact visits_of_mem hr hm
  · rw [below_iff hr hm, ← (node.postorder_perm_preorder.map Node.id).mem_iff, hn,
      List.mem_range'_1]
    omega

end Regular

/-- A walk over a lowered tree along the edges, from the root on, meets the numbers in order. So
the root comes last, children come before their parents, every other node is one child of one
node, all nodes are reached, and the nodes at and below a node are an interval that it ends. -/
theorem postorder_of_ofJson {value : Json} {tree : Tree} (h : Tree.ofJson value = .ok tree) :
    (∀ ids, tree.Visits tree.root.id ids ↔ ids = List.range tree.size) ∧
      tree.root.id + 1 = tree.size ∧
      (∀ id, ∀ child ∈ tree.childIds id, child < id) ∧
      ((List.range tree.size).flatMap tree.childIds).Perm (List.range tree.root.id) ∧
      (∀ id < tree.size, tree.Below tree.root.id id) ∧
      ∀ id < tree.size, ∃ first ≤ id, tree.Visits id (List.range' first (id + 1 - first)) ∧
        ∀ other, tree.Below id other ↔ first ≤ other ∧ other ≤ id := by
  have hr := regular_of_ofJson h
  have rootMem := tree.root.self_mem_preorder
  refine ⟨fun ids => ⟨fun walk => ?_, ?_⟩, tree.root_id, fun id child hc => ?_,
    childIds_perm hr, fun id hk => ?_, fun id hk => exists_interval hr hk⟩
  · rw [eq_of_visits hr rootMem walk, map_id_postorder]
  · rintro rfl
    rw [← map_id_postorder]
    exact visits_of_mem hr rootMem
  · cases hf : tree.node? id with
    | none => simp [childIds, hf] at hc
    | some node =>
      obtain ⟨hm, rfl⟩ := node?_eq_some_iff.mp hf
      rw [childIds_eq hr hm] at hc
      obtain ⟨below, inside, rfl⟩ := List.mem_map.mp hc
      obtain ⟨start, -, hnum, -⟩ := tree.numberedFrom_zero.below hm
      obtain ⟨first, -, hnum', bound⟩ := hnum.child inside
      have := hnum.id_eq
      have := hnum'.id_eq
      omega
  · obtain ⟨node, hm, rfl, -⟩ := exists_node hk
    exact (below_iff hr rootMem).mpr (List.mem_map_of_mem hm)

def sparseSample : Json :=
  .ofNode "Program" [("body", .array [.ofNode "ExpressionStatement"
    [("expression", .ofNode "ArrayExpression" [("elements", .array
      [.ofNode "Identifier" [("name", .string "a")], .null,
        .ofNode "JSXElement" [("children", .array
          [.null, .ofNode "Identifier" [("name", .string "b")]])]])])]])]

theorem postorder_of_sparseSample : ∃ tree, ofJson sparseSample = .ok tree ∧
    (∀ ids, tree.Visits 5 ids ↔ ids = [0, 1, 2, 3, 4, 5]) ∧ tree.childIds 3 = [0, 2] ∧
      ∃ first ≤ 2, tree.Visits 2 (List.range' first (3 - first)) ∧
        ∀ other, tree.Below 2 other ↔ first ≤ other ∧ other ≤ 2 := by
  obtain ⟨tree, hj, facts⟩ := exists_of_ofJson
    (f := fun tree => (tree.size, tree.root.id, tree.childIds 3)) (b := (6, 5, [0, 2]))
    (by decide +kernel : (ofJson sparseSample).toOption.map _ = some _)
  obtain ⟨size, root, children⟩ := Prod.mk.inj facts |>.imp_right Prod.mk.inj
  obtain ⟨walk, -, -, -, -, intervals⟩ := postorder_of_ofJson hj
  rw [root, size] at walk
  exact ⟨tree, hj, walk, children, intervals 2 (by omega)⟩

end Tree

end SyntaxMarkup
