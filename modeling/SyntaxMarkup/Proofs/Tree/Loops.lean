import SyntaxMarkup.Proofs.Tree.Records

namespace SyntaxMarkup

namespace Tree

variable {tree : Tree}

section Follow

variable {ρ : Type}

/-- A round of a loop that goes on to a child, and has its result at a node from which it does not
go on. -/
def follow (choose? : Kind → List (Slot Nat) → Option Nat) (result : Nat → Kind → ρ) (tree : Tree)
    (id : Nat) : Option (Turn Nat ρ) :=
  (tree.record? id).map fun record =>
    match choose? record.kind record.slots with
    | some child => .again child
    | none => .done (result id record.kind)

/-- A loop that follows children ends, and with a result for the node at which it starts, if there
is one for the node at which it stops and the same one for each node before. -/
theorem exists_follow (choose? : {α : Type} → Kind → List (Slot α) → Option α)
    (result : Nat → Kind → ρ)
    (hn : ∀ kind (slots : List (Slot (Node Nat))),
      choose? kind (slots.map (·.map Node.id)) = (choose? kind slots).map Node.id)
    (hc : ∀ {node child : Node Nat}, choose? node.kind node.slots = some child →
      child ∈ node.children)
    (right : Node Nat → ρ → Prop)
    (last : ∀ node ∈ tree.root.preorder, choose? node.kind node.slots = none →
      right node (result node.id node.kind))
    (before : ∀ {node child : Node Nat}, choose? node.kind node.slots = some child →
      ∀ found, right child found → right node found)
    {node : Node Nat} (hmem : node ∈ tree.root.preorder) :
    ∃ trace found, Descends (tree.follow choose? result) id (· < tree.size) node.id trace found ∧
      right node found := by
  have turns : ∀ id < tree.size,
      (∃ found, tree.follow choose? result id = some (.done found) ∧
        ∀ node ∈ tree.root.preorder, node.id = id → right node found) ∨
      ∃ child, tree.follow choose? result id = some (.again child) ∧ child < tree.size ∧
        child < id ∧ ∀ found, (∀ node ∈ tree.root.preorder, node.id = child → right node found) →
          ∀ node ∈ tree.root.preorder, node.id = id → right node found := by
    intro id hk
    obtain ⟨node, hmem, rfl, -⟩ := exists_node hk
    have ho : ∀ other ∈ tree.root.preorder, other.id = node.id → other = node :=
      fun other hmem' same => Option.some.inj ((node?_id hmem').symm.trans (same ▸ node?_id hmem))
    rw [follow, record?_id hmem, Option.map_some, Node.kind_record, Node.slots_record, hn]
    cases chosen : choose? node.kind node.slots with
    | none =>
      refine .inl ⟨_, rfl, fun other hmem' same => ?_⟩
      cases ho other hmem' same
      exact last node hmem chosen
    | some child =>
      have ht := Node.mem_preorder_trans hmem (Node.child_mem_preorder (hc chosen))
      refine .inr ⟨child.id, rfl, id_lt_size ht, id_lt_of_child hmem (hc chosen), ?_⟩
      intro found hchild other hmem' same
      cases ho other hmem' same
      exact before chosen found (hchild child ht rfl)
  obtain ⟨trace, found, hdes, hr⟩ := exists_descends _ turns node.id (id_lt_size hmem)
  exact ⟨trace, found, hdes, hr node hmem rfl⟩

/-- The loop to the node that the text of a node starts with. -/
def leftmost : Tree → Nat → Option (Turn Nat Nat) :=
  follow Kind.leading? fun id _ => id

/-- The loop that looks for a call in what a call after `new` would be taken from. -/
def calleeContainsCall : Tree → Nat → Option (Turn Nat Bool) :=
  follow Kind.calleeBase? fun _ kind => kind.isCall

theorem exists_leftmost {node : Node Nat} (hm : node ∈ tree.root.preorder) :
    ∃ trace first, Descends tree.leftmost id (· < tree.size) node.id trace first ∧
      ∃ other ∈ tree.root.preorder, other.id = first ∧ other.kind = node.firstKind := by
  refine exists_follow Kind.leading? (fun id _ => id) (Kind.leading?_map Node.id)
    Kind.mem_of_leading? (fun node first => ∃ other ∈ tree.root.preorder, other.id = first ∧
      other.kind = node.firstKind) ?_ ?_ hm
  · intro node hm none
    rw [Node.firstKind_eq, none]
    exact ⟨node, hm, rfl, rfl⟩
  · intro node child some first hf
    rw [Node.firstKind_eq, some]
    exact hf

theorem isCall_of_calleeBase? {α : Type} {kind : Kind} {slots : List (Slot α)} {child : α}
    (base : kind.calleeBase? slots = some child) : kind.isCall = false := by
  unfold Kind.calleeBase? at base
  split at base <;> first | rfl | cases base

theorem exists_calleeContainsCall {node : Node Nat} (hm : node ∈ tree.root.preorder) :
    ∃ trace, Descends tree.calleeContainsCall id (· < tree.size) node.id trace
      node.containsCall := by
  obtain ⟨trace, found, hdes, rfl⟩ :=
    exists_follow Kind.calleeBase? (fun _ kind => kind.isCall) (Kind.calleeBase?_map Node.id)
      Kind.mem_of_calleeBase?
      (fun node found => found = node.containsCall)
      (fun node _ none => by rw [Node.containsCall_eq, none, Option.elim_none, Bool.or_false])
      (fun {node child} some found same => by
        rw [Node.containsCall_eq, some, isCall_of_calleeBase? some, Bool.false_or, same]
        rfl)
      hm
  exact ⟨trace, hdes⟩

end Follow

section Spread

/-- The numbers that were given a unit, and those that wait for it with the next one first. -/
structure Spread where
  shared : List Nat
  stack : List Nat

/-- A round of the loop that gives a unit to all nodes below one. The children of a node go on the
stack in their order, so that the last one is next. -/
def spread (tree : Tree) (state : Spread) : Option (Turn Spread (List Nat)) :=
  match state.stack with
  | [] => some (.done state.shared)
  | id :: rest =>
    (tree.record? id).map fun record =>
      .again ⟨state.shared ++ [id], record.children.reverse ++ rest⟩

/-- What is shared in the end is what was taken from the stack on the way. -/
theorem shared_eq {state : Spread} {trace : List Spread} {shared : List Nat}
    (ends : Ends tree.spread state trace shared) :
    shared = state.shared ++ trace.filterMap (·.stack.head?) := by
  induction ends with
  | @done state shared turn =>
    obtain ⟨before, _ | ⟨id, rest⟩⟩ := state
    · cases turn
      simp
    · obtain ⟨record, -, eq⟩ := Option.map_eq_some_iff.mp turn
      cases eq
  | @again state next trace shared turn _ ih =>
    obtain ⟨before, _ | ⟨id, rest⟩⟩ := state
    · cases turn
    · obtain ⟨record, -, eq⟩ := Option.map_eq_some_iff.mp turn
      cases eq
      rw [ih, List.append_assoc]
      rfl

/-- The nodes at and below those on a stack. -/
def awaiting (tree : Tree) (stack : List Nat) : List (Node Nat) :=
  (stack.filterMap tree.node?).flatMap Node.preorder

theorem awaiting_nil : tree.awaiting [] = [] :=
  rfl

theorem awaiting_cons {node : Node Nat} (hm : node ∈ tree.root.preorder) (rest : List Nat) :
    tree.awaiting (node.id :: rest) = node :: (node.descendants ++ tree.awaiting rest) := by
  rw [awaiting, List.filterMap_cons_some (node?_id hm), List.flatMap_cons, Node.preorder_eq_cons]
  rfl

theorem awaiting_children {node : Node Nat} (hm : node ∈ tree.root.preorder) (rest : List Nat) :
    (tree.awaiting (node.record.children.reverse ++ rest)).Perm
      (node.descendants ++ tree.awaiting rest) := by
  have hf : (node.children.reverse.map Node.id).filterMap tree.node? =
      node.children.reverse := by
    rw [List.filterMap_map]
    refine (List.filterMap_congr fun child hc => ?_).trans List.filterMap_some
    exact node?_id (Node.mem_preorder_trans hm
      (Node.child_mem_preorder (List.mem_reverse.mp hc)))
  rw [awaiting, Node.children_record, ← List.map_reverse, List.filterMap_append,
    List.flatMap_append, hf, Node.descendants_eq]
  exact (node.children.reverse_perm.flatMap_right _).append_right _

/-- The loop shares each node that was awaited, and that once. -/
theorem exists_spread (state : Spread) (hk : ∀ id ∈ state.stack, id < tree.size) :
    ∃ trace shared, Descends tree.spread (fun state => (tree.awaiting state.stack).length)
        (fun state => ∀ id ∈ state.stack, id < tree.size) state trace shared ∧
      shared.Perm (state.shared ++ (tree.awaiting state.stack).map Node.id) := by
  -- a round takes one node from those awaited; as the last child comes first, their order changes
  refine exists_descends (fun (state : Spread) (shared : List Nat) =>
    shared.Perm (state.shared ++ (tree.awaiting state.stack).map Node.id)) ?_ state hk
  rintro ⟨shared, _ | ⟨id, rest⟩⟩ hk
  · exact .inl ⟨shared, rfl, by simp [awaiting]⟩
  · obtain ⟨first, others⟩ := List.forall_mem_cons.mp hk
    obtain ⟨node, hm, rfl, -⟩ := exists_node first
    have order := awaiting_children hm rest
    refine .inr ⟨⟨shared ++ [node.id], node.record.children.reverse ++ rest⟩, ?_, ?_, ?_, ?_⟩
    · change (tree.record? node.id).map _ = _
      rw [record?_id hm, Option.map_some]
    · intro id waits
      rcases List.mem_append.mp waits with hc | later
      · exact (lt_of_mem_record (record?_id hm) (List.mem_reverse.mp hc)).trans first
      · exact others id later
    · dsimp only
      rw [order.length_eq, awaiting_cons hm]
      exact Nat.lt_succ_self _
    · intro result hr
      refine hr.trans ?_
      rw [awaiting_cons hm, List.append_assoc]
      exact ((order.map Node.id).cons node.id).append_left shared

/-- The loop from the children of a node shares what is below the node. -/
theorem exists_spread_of_mem {node : Node Nat} (hm : node ∈ tree.root.preorder) :
    ∃ trace shared, Ends tree.spread ⟨[], node.record.children.reverse⟩ trace shared ∧
      (∀ state ∈ trace, ∀ id ∈ state.stack, id < tree.size) ∧ trace.length ≤ tree.size ∧
      shared.Perm (node.descendants.map Node.id) := by
  have hk : ∀ id ∈ node.record.children.reverse, id < tree.size := fun id hc =>
    (lt_of_mem_record (record?_id hm) (List.mem_reverse.mp hc)).trans (id_lt_size hm)
  obtain ⟨trace, shared, hdes, same⟩ := exists_spread ⟨[], _⟩ hk
  have order := awaiting_children hm []
  rw [List.append_nil, awaiting_nil, List.append_nil] at order
  refine ⟨trace, shared, hdes.ends, hdes.kept, ?_, same.trans (order.map Node.id)⟩
  have rounds : trace.length ≤ (tree.awaiting node.record.children.reverse).length + 1 :=
    hdes.length_le
  rw [order.length_eq] at rounds
  obtain ⟨first, -, -, inside⟩ := tree.numberedFrom_zero.below hm
  have all : node.descendants.length + 1 = node.size := by
    rw [← node.length_postorder, node.postorder_perm_preorder.length_eq, Node.preorder_eq_cons]
    rfl
  rw [← tree.size_eq] at inside
  omega

theorem nodup_below {node : Node Nat} (hm : node ∈ tree.root.preorder) :
    (node.descendants.map Node.id).Nodup := by
  obtain ⟨first, -, hn, -⟩ := tree.numberedFrom_zero.below hm
  have hd : (node.preorder.map Node.id).Nodup := by
    rw [← (node.postorder_perm_preorder.map Node.id).nodup_iff, hn]
    exact List.nodup_range'
  rw [Node.preorder_eq_cons, List.map_cons] at hd
  exact hd.of_cons

end Spread

section Climb

/-- A node on the way up, and the path below it. -/
structure Climb where
  id : Nat
  below : NodePath

/-- A round of the loop that spells out the path of a node. -/
def climb (tree : Tree) (state : Climb) : Option (Turn Climb NodePath) :=
  (tree.record? state.id).map fun record =>
    let types := record.kind.typeName :: state.below.typePath
    match tree.annotate.link? state.id with
    | some link => .again ⟨link.parent, ⟨types, link.accessor :: state.below.fieldPath⟩⟩
    | none => .done ⟨types, state.below.fieldPath⟩

theorem exists_climb (hr : tree.Regular) {id : Nat} (hk : id < tree.size) :
    ∃ trace, Descends tree.climb (fun state => tree.root.id - state.id)
      (fun state => state.id < tree.size) ⟨id, {}⟩ trace (tree.annotate.path id) := by
  have last := tree.root_id
  -- numbers rise on the way up, so what falls is the distance to that of the root, the greatest one
  have turns : ∀ state : Climb, state.id < tree.size →
      (∃ path, tree.climb state = some (.done path) ∧
        path = tree.annotate.climb tree.size state.id state.below) ∨
      ∃ next, tree.climb state = some (.again next) ∧ next.id < tree.size ∧
        tree.root.id - next.id < tree.root.id - state.id ∧
        ∀ path, path = tree.annotate.climb tree.size next.id next.below →
          path = tree.annotate.climb tree.size state.id state.below := by
    rintro ⟨id, below⟩ hk
    obtain ⟨node, hm, rfl, hf⟩ := exists_node hk
    have step (path : NodePath) : tree.annotate.climb tree.size node.id path =
        tree.annotate.climb (tree.root.id + 1) node.id path := by rw [last]
    simp only [climb, record?_id hm, Option.map_some, step, AnnotatedTree.climb,
      typeName_annotate hf]
    cases hl : tree.annotate.link? node.id with
    | none => exact .inl ⟨_, rfl, rfl⟩
    | some link =>
      obtain ⟨greater, inside⟩ := link_bounds hr hl
      refine .inr ⟨_, rfl, inside, by dsimp only; omega, fun path same => same.trans ?_⟩
      exact climb_eq_climb hr inside (by omega) (by omega) _
  obtain ⟨trace, path, hdes, rfl⟩ :=
    exists_descends (fun (state : Climb) path =>
      path = tree.annotate.climb tree.size state.id state.below) turns ⟨id, {}⟩ hk
  exact ⟨trace, hdes⟩

end Climb

/-- The loops that start at a node of a tree: they end after at most as many rounds as there are
nodes, look up no number outside the tree, and come to what holds of the node. -/
structure LoopsEnd (tree : Tree) (node : Node Nat) : Prop where
  leftmost : ∃ trace first, Descends tree.leftmost id (· < tree.size) node.id trace first ∧
    trace.length ≤ tree.size ∧ ∃ other, tree.node? first = some other ∧ other.kind = node.firstKind
  callee : ∃ trace, Descends tree.calleeContainsCall id (· < tree.size) node.id trace
      node.containsCall ∧ trace.length ≤ tree.size
  /-- What is taken from the stack is every node below, one time. -/
  spread : ∃ trace shared, Ends tree.spread ⟨[], node.record.children.reverse⟩ trace shared ∧
    trace.length ≤ tree.size ∧ (∀ state ∈ trace, ∀ id ∈ state.stack, id < tree.size) ∧
    shared = trace.filterMap (·.stack.head?) ∧ shared.Perm (node.descendants.map Node.id) ∧
    shared.Nodup
  climb : ∃ trace, Ends tree.climb ⟨node.id, {}⟩ trace (tree.annotate.path node.id) ∧
    trace.length ≤ tree.size ∧ (∀ state ∈ trace, state.id < tree.size) ∧
    trace.Pairwise fun before later => before.id < later.id

theorem loopsEnd (hr : tree.Regular) {node : Node Nat} (hm : node ∈ tree.root.preorder) :
    tree.LoopsEnd node where
  leftmost := by
    obtain ⟨trace, first, hdes, other, ht, rfl, kind⟩ := exists_leftmost hm
    have inside : node.id < tree.size := id_lt_size hm
    exact ⟨trace, other.id, hdes, hdes.length_le.trans inside, other, node?_id ht, kind⟩
  callee := by
    obtain ⟨trace, hdes⟩ := exists_calleeContainsCall hm
    have inside : node.id < tree.size := id_lt_size hm
    exact ⟨trace, hdes, hdes.length_le.trans inside⟩
  spread := by
    obtain ⟨trace, shared, ends, inside, rounds, same⟩ := exists_spread_of_mem hm
    exact ⟨trace, shared, ends, rounds, inside, shared_eq ends, same,
      same.nodup_iff.mpr (nodup_below hm)⟩
  climb := by
    obtain ⟨trace, hdes⟩ := exists_climb hr (id_lt_size hm)
    have rounds := hdes.length_le
    have last := tree.root_id
    refine ⟨trace, hdes.ends, by omega, hdes.kept, hdes.falls.imp fun higher => ?_⟩
    omega

end Tree

end SyntaxMarkup
