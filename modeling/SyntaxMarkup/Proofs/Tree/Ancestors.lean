import SyntaxMarkup.Proofs.Tree.Links

namespace SyntaxMarkup

namespace Tree

variable {tree : Tree}

theorem id_lt_of_child {node child : Node Nat} (hm : node ∈ tree.root.preorder)
    (hc : child ∈ node.children) : child.id < node.id := by
  obtain ⟨start, -, hnum, -⟩ := tree.numberedFrom_zero.below hm
  obtain ⟨first, -, hnum', bound⟩ := hnum.child hc
  have := hnum.id_eq
  have := hnum'.id_eq
  omega

/-- A link tells of which node a node is a child. -/
theorem exists_edge_of_link (hr : tree.Regular) {id : Nat} {link : ParentLink}
    (hl : tree.annotate.link? id = some link) :
    ∃ node ∈ tree.root.preorder, ∃ edge ∈ node.edges, edge.child ∈ node.children ∧
      edge.child.id = id ∧ link = ⟨node.id, edge.key, edge.index⟩ := by
  obtain ⟨node, hm, hlinks⟩ := (link?_eq_some_iff hr).mp hl
  obtain ⟨edge, he, eq⟩ := List.mem_map.mp hlinks
  obtain ⟨rfl, rfl⟩ := Prod.mk.inj eq
  refine ⟨node, hm, edge, he, ?_, rfl, rfl⟩
  rw [← Node.map_child_edges (hr node hm)]
  exact List.mem_map_of_mem he

theorem link_bounds (hr : tree.Regular) {id : Nat} {link : ParentLink}
    (hl : tree.annotate.link? id = some link) : id < link.parent ∧ link.parent < tree.size := by
  obtain ⟨node, hm, edge, -, hc, rfl, rfl⟩ := exists_edge_of_link hr hl
  exact ⟨id_lt_of_child hm hc, id_lt_size hm⟩

theorem link?_eq_none_iff (hr : tree.Regular) {id : Nat} (hk : id < tree.size) :
    tree.annotate.link? id = none ↔ id = tree.root.id := by
  constructor
  · intro none
    obtain ⟨node, hm, rfl, -⟩ := exists_node hk
    rw [Node.preorder_eq_cons] at hm
    rcases List.mem_cons.mp hm with rfl | below
    · rfl
    · rw [← tree.root.flatMap_children_perm.mem_iff] at below
      obtain ⟨parent, ht, hc⟩ := List.mem_flatMap.mp below
      obtain ⟨link, hl, -⟩ := exists_link_of_child hr ht hc
      cases none.symm.trans hl
  · rintro rfl
    exact link?_root hr

/-- What holds of the root, and of a node once it holds of its parent, holds of every node. -/
theorem ancestry_induction (hr : tree.Regular) {motive : Nat → Prop}
    (root : motive tree.root.id)
    (child : ∀ id link, tree.annotate.link? id = some link → motive link.parent → motive id)
    {id : Nat} (hk : id < tree.size) : motive id := by
  -- parents have greater numbers, so the distance to the last number shrinks on the way up
  induction distance : tree.size - id using Nat.strong_induction_on generalizing id with
  | _ distance ih =>
    cases hl : tree.annotate.link? id with
    | none =>
      rw [(link?_eq_none_iff hr hk).mp hl]
      exact root
    | some link =>
      obtain ⟨greater, inside⟩ := link_bounds hr hl
      exact child id link hl (ih _ (by omega) inside rfl)

end Tree

namespace AnnotatedTree

/-- The way from the root to a node as `climb` finds it, if every number on it is one of the tree
and the steps suffice. -/
def strictClimb (tree : AnnotatedTree) : (steps : Nat) → (id : Nat) → (below : NodePath) →
    Option NodePath
  | 0, _, _ => none
  | steps + 1, id, below => do
    let node ← tree.nodes[id]?
    match tree.link? id with
    | some link =>
      tree.strictClimb steps link.parent
        ⟨node.typeName :: below.typePath, link.accessor :: below.fieldPath⟩
    | none => some ⟨node.typeName :: below.typePath, below.fieldPath⟩

theorem strictClimb_eq_none {tree : AnnotatedTree} {id : Nat} (outside : tree.nodes.size ≤ id)
    (steps : Nat) (below : NodePath) : tree.strictClimb steps id below = none := by
  cases steps with
  | zero => rfl
  | succ steps =>
    rw [strictClimb, Array.getElem?_eq_none outside]
    rfl

end AnnotatedTree

namespace Tree

variable {tree : Tree}

theorem typeName_annotate {id : Nat} {node : Node Nat} (hf : tree.node? id = some node) :
    tree.annotate.typeName id = node.typeName := by
  have hf : tree.annotate.nodes[id]? = some node := hf
  rw [AnnotatedTree.typeName, hf, Option.elim_some]

/-- A climb that has as many steps as there are greater numbers stays inside the tree. -/
theorem strictClimb_eq (hr : tree.Regular) {steps id : Nat} (hk : id < tree.size)
    (enough : tree.size ≤ id + steps) (below : NodePath) :
    tree.annotate.strictClimb steps id below = some (tree.annotate.climb steps id below) := by
  induction steps generalizing id below with
  | zero => omega
  | succ steps ih =>
    obtain ⟨node, -, -, hf⟩ := exists_node hk
    have hpresent : tree.annotate.nodes[id]? = some node := hf
    rw [AnnotatedTree.strictClimb, AnnotatedTree.climb, typeName_annotate hf, hpresent]
    cases hl : tree.annotate.link? id with
    | none => rfl
    | some link =>
      obtain ⟨greater, inside⟩ := link_bounds hr hl
      exact ih inside (by omega) _

/-- Steps that are left over make no difference. -/
theorem climb_eq_climb (hr : tree.Regular) {first second id : Nat} (hk : id < tree.size)
    (enough : tree.size ≤ id + first) (enough' : tree.size ≤ id + second) (below : NodePath) :
    tree.annotate.climb first id below = tree.annotate.climb second id below := by
  induction first generalizing second id below with
  | zero => omega
  | succ first ih =>
    cases second with
    | zero => omega
    | succ second =>
      rw [AnnotatedTree.climb, AnnotatedTree.climb]
      cases hl : tree.annotate.link? id with
      | none => rfl
      | some link =>
        obtain ⟨greater, inside⟩ := link_bounds hr hl
        exact ih inside (by omega) (by omega) _

theorem path_root (hr : tree.Regular) :
    tree.annotate.path tree.root.id = ⟨[tree.root.typeName], []⟩ := by
  have positive := tree.root_id
  rw [AnnotatedTree.path, show tree.annotate.nodes.size = tree.root.id + 1 from positive.symm,
    AnnotatedTree.climb, link?_root hr,
    typeName_annotate (node?_id tree.root.self_mem_preorder)]

/-- The path of a node is that of its parent with one step more. -/
theorem path_of_link (hr : tree.Regular) {id : Nat} {link : ParentLink}
    (hl : tree.annotate.link? id = some link) :
    tree.annotate.path id =
      (tree.annotate.path link.parent).extend link.accessor (tree.annotate.typeName id) := by
  obtain ⟨greater, inside⟩ := link_bounds hr hl
  have more : tree.annotate.climb tree.size id {} = tree.annotate.climb (tree.size + 1) id {} :=
    climb_eq_climb hr (by omega) (by omega) (by omega) {}
  rw [AnnotatedTree.path, show tree.annotate.nodes.size = tree.size from rfl, more,
    AnnotatedTree.climb_succ hl]
  rfl

theorem head?_typePath (hr : tree.Regular) {id : Nat} (hk : id < tree.size) :
    (tree.annotate.path id).typePath.head? = some tree.root.typeName := by
  refine ancestry_induction hr (motive := fun id =>
    (tree.annotate.path id).typePath.head? = some tree.root.typeName) ?_ ?_ hk
  · rw [path_root hr]
    rfl
  · intro id link hl ih
    rw [path_of_link hr hl]
    change ((tree.annotate.path link.parent).typePath ++ _).head? = _
    rw [List.head?_append, ih, Option.some_or]

theorem getLast?_typePath (hr : tree.Regular) {id : Nat} (hk : id < tree.size) :
    (tree.annotate.path id).typePath.getLast? = some (tree.annotate.typeName id) := by
  cases hl : tree.annotate.link? id with
  | none =>
    rw [(link?_eq_none_iff hr hk).mp hl, path_root hr,
      typeName_annotate (node?_id tree.root.self_mem_preorder)]
    rfl
  | some link =>
    rw [path_of_link hr hl]
    exact List.getLast?_concat

end Tree

end SyntaxMarkup
