import SyntaxMarkup.Proofs.Tree.Ancestors

namespace SyntaxMarkup

theorem Node.child_mem_of_edge {ι : Type} {node : Node ι} {edge : Edge (Node ι)}
    (he : edge ∈ node.edges) : edge.child ∈ node.children := by
  obtain ⟨field, hlisted, hfield⟩ := List.mem_flatMap.mp he
  obtain ⟨entry, hentry, rfl⟩ := List.mem_map.mp hfield
  have hfields : field ∈ node.fields := by
    rw [listed] at hlisted
    split at hlisted
    · obtain ⟨_, -, hf⟩ := List.mem_filterMap.mp hlisted
      exact List.mem_of_find?_eq_some hf
    · exact hlisted
  rw [children_eq_flatMap]
  refine List.mem_flatMap_of_mem hfields ?_
  rw [← Slot.map_snd_entries]
  exact List.mem_map_of_mem hentry

/-- A loop over a tree: the numbers that were visited, those that are pending with the next one
first, and what the visits have made. -/
structure Walk (σ : Type) where
  visited : List Nat
  pending : List Nat
  state : σ

namespace Walk

variable {σ : Type}

/-- Puts the children of a node on the stack, the last one first. -/
def push (pending : List Nat) (node : Node Nat) : List Nat :=
  node.edges.reverse.foldl (fun rest edge => edge.child.id :: rest) pending

/-- One round of the loop; there is none where nothing is pending, or no node has the number. -/
def step? (tree : Tree) (visit : σ → Node Nat → σ) (walk : Walk σ) : Option (Walk σ) :=
  match walk.pending with
  | [] => none
  | id :: rest =>
    (tree.node? id).map fun node =>
      ⟨walk.visited ++ [id], push rest node, visit walk.state node⟩

def run? (tree : Tree) (visit : σ → Node Nat → σ) : (rounds : Nat) → Walk σ → Option (Walk σ)
  | 0, walk => some walk
  | rounds + 1, walk => (run? tree visit rounds walk).bind (step? tree visit)

/-- The loop before its first round. -/
def start (tree : Tree) (state : σ) : Walk σ :=
  ⟨[], [tree.root.id], state⟩

variable {tree : Tree} {visit : σ → Node Nat → σ} {state : σ} {walk : Walk σ}

theorem push_eq {node : Node Nat} (hr : node.Regular) (pending : List Nat) :
    push pending node = node.children.map Node.id ++ pending := by
  rw [push, List.foldl_reverse, List.foldr_cons_eq_append, ← Node.map_child_edges hr, List.map_map]
  rfl

theorem step?_eq_none (he : walk.pending = []) : step? tree visit walk = none := by
  rw [step?, he]

/-- What was visited, and after it what is at and below the pending nodes, is the whole tree in
order. -/
structure Partway (tree : Tree) (visit : σ → Node Nat → σ) (state : σ) (walk : Walk σ)
    (done waiting : List (Node Nat)) : Prop where
  whole : done ++ waiting.flatMap Node.preorder = tree.root.preorder
  visited : walk.visited = done.map Node.id
  pending : walk.pending = waiting.map Node.id
  state : walk.state = done.foldl visit state

theorem partway_start (tree : Tree) (visit : σ → Node Nat → σ) (state : σ) :
    Partway tree visit state (start tree state) [] [tree.root] where
  whole := by rw [List.nil_append, List.flatMap_singleton]
  visited := rfl
  pending := rfl
  state := rfl

/-- A round takes the next pending node and leaves its children pending in its place. -/
theorem Partway.step (hr : tree.Regular) {done rest : List (Node Nat)} {node : Node Nat}
    (hp : Partway tree visit state walk done (node :: rest)) :
    ∃ next, step? tree visit walk = some next ∧
      Partway tree visit state next (done ++ [node]) (node.children ++ rest) := by
  have hm : node ∈ tree.root.preorder := by
    rw [← hp.whole, List.flatMap_cons]
    exact List.mem_append_right _ (List.mem_append_left _ node.self_mem_preorder)
  refine ⟨⟨walk.visited ++ [node.id], push (rest.map Node.id) node, visit walk.state node⟩,
    ?_, ?_, ?_, ?_, ?_⟩
  · simp only [step?, hp.pending, List.map_cons, Tree.node?_id hm, Option.map_some]
  · rw [← hp.whole, List.flatMap_append, List.flatMap_cons, Node.preorder_eq]
    simp only [List.append_assoc, List.cons_append, List.nil_append]
  · rw [hp.visited, List.map_append, List.map_singleton]
  · rw [push_eq (hr node hm), List.map_append]
  · rw [hp.state, List.foldl_append]
    rfl

/-- As long as there are nodes that were not visited, the loop goes on. -/
theorem exists_partway (hr : tree.Regular) (visit : σ → Node Nat → σ) (state : σ)
    {rounds : Nat} (enough : rounds ≤ tree.size) :
    ∃ walk done waiting, run? tree visit rounds (start tree state) = some walk ∧
      Partway tree visit state walk done waiting ∧ done.length = rounds := by
  induction rounds with
  | zero => exact ⟨_, _, _, rfl, partway_start tree visit state, rfl⟩
  | succ rounds ih =>
    obtain ⟨walk, done, waiting, hreached, hp, count⟩ := ih (by omega)
    cases waiting with
    | nil =>
      have all := congrArg List.length hp.whole
      rw [List.flatMap_nil, List.append_nil, ← tree.root.postorder_perm_preorder.length_eq,
        Node.length_postorder, ← tree.size_eq] at all
      omega
    | cons node rest =>
      obtain ⟨next, step, hp⟩ := hp.step hr
      refine ⟨next, _, _, ?_, hp, by simp [count]⟩
      rw [run?, hreached, Option.bind_some, step]

theorem run?_eq_none {first second : Nat} (le : first ≤ second)
    (he : run? tree visit first walk = none) : run? tree visit second walk = none := by
  induction le with
  | refl => exact he
  | step _ ih => rw [run?, ih, Option.bind_none]

/-- The loop ends after as many rounds as there are nodes, and at no other time. -/
theorem finished_iff (hr : tree.Regular) {rounds : Nat} {last : Walk σ} :
    run? tree visit rounds (start tree state) = some last ∧ last.pending = [] ↔
      rounds = tree.size ∧
        last = ⟨tree.root.preorder.map Node.id, [], tree.root.preorder.foldl visit state⟩ := by
  have count (done waiting : List (Node Nat))
      (whole : done ++ waiting.flatMap Node.preorder = tree.root.preorder) :
      done.length + (waiting.flatMap Node.preorder).length = tree.size := by
    rw [← List.length_append, whole, ← tree.root.postorder_perm_preorder.length_eq,
      Node.length_postorder, tree.size_eq]
  have final : run? tree visit tree.size (start tree state) =
      some ⟨tree.root.preorder.map Node.id, [], tree.root.preorder.foldl visit state⟩ := by
    obtain ⟨⟨visited, pending, made⟩, done, waiting, hrun, hp, full⟩ :=
      exists_partway hr visit state le_rfl
    have all := count done waiting hp.whole
    cases waiting with
    | cons node rest =>
      rw [List.flatMap_cons, Node.preorder_eq_cons, List.cons_append, List.length_cons] at all
      omega
    | nil =>
      obtain ⟨whole, rfl, rfl, rfl⟩ := hp
      rw [List.flatMap_nil, List.append_nil] at whole
      rw [hrun, whole]
      rfl
  constructor
  · rintro ⟨hrun, he⟩
    have inside : rounds = tree.size := by
      rcases lt_trichotomy rounds tree.size with less | same | more
      · obtain ⟨walk, done, waiting, hrun', hp, full⟩ :=
          exists_partway hr visit state less.le
        cases hrun.symm.trans hrun'
        have all := count done waiting hp.whole
        rw [hp.pending, List.map_eq_nil_iff] at he
        rw [he, List.flatMap_nil, List.length_nil] at all
        omega
      · exact same
      · have stops : run? tree visit (tree.size + 1) (start tree state) = none := by
          rw [run?, final, Option.bind_some, step?_eq_none rfl]
        cases hrun.symm.trans (run?_eq_none more stops)
    subst inside
    exact ⟨rfl, Option.some.inj (hrun.symm.trans final)⟩
  · rintro ⟨rfl, rfl⟩
    exact ⟨final, rfl⟩

end Walk

section Entries

/-- Writes an entry down in a table, which grows if it has no place for it yet. -/
def insertLink (table : Array (Option ParentLink)) (id : Nat) (link : ParentLink) :
    Array (Option ParentLink) :=
  (table ++ Array.replicate (id + 1 - table.size) none).setIfInBounds id (some link)

theorem insertLink_eq {table : Array (Option ParentLink)} {id : Nat} (inside : id < table.size)
    (link : ParentLink) : insertLink table id link = table.setIfInBounds id (some link) := by
  rw [insertLink, Nat.sub_eq_zero_of_le inside, Array.replicate_zero, Array.append_empty]

/-- Links the children of a node to it, the last one first. -/
def Node.linkChildren (table : Array (Option ParentLink)) (node : Node Nat) :
    Array (Option ParentLink) :=
  node.edges.reverse.foldl
    (fun all edge => insertLink all edge.child.id ⟨node.id, edge.key, edge.index⟩) table

theorem foldl_insertLink {entries : List (Nat × ParentLink)} {table : Array (Option ParentLink)}
    (inside : ∀ entry ∈ entries, entry.1 < table.size) :
    entries.foldl (fun all entry => insertLink all entry.1 entry.2) table =
      writeAll entries table := by
  induction entries generalizing table with
  | nil => rfl
  | cons entry rest ih =>
    obtain ⟨first, others⟩ := List.forall_mem_cons.mp inside
    rw [List.foldl_cons, insertLink_eq first, ih (by simpa using others)]
    rfl

variable {β : Type}

theorem size_writeAll (entries : List (Nat × β)) (table : Array (Option β)) :
    (writeAll entries table).size = table.size := by
  induction entries generalizing table with
  | nil => rfl
  | cons entry rest ih => exact (ih _).trans Array.size_setIfInBounds

/-- Where no place is written twice, the order of the writes does not matter. -/
theorem writeAll_of_perm {entries other : List (Nat × β)} (same : entries.Perm other)
    (hd : (entries.map Prod.fst).Nodup) (table : Array (Option β)) :
    writeAll entries table = writeAll other table := by
  refine same.foldl_eq' (fun entry hmem entry' hmem' table => ?_) table
  by_cases eq : entry = entry'
  · rw [eq]
  · have ha : entry.1 ≠ entry'.1 := fun keys =>
      eq (List.inj_on_of_nodup_map hd hmem hmem' keys)
    exact Array.setIfInBounds_comm _ _ ha

end Entries

namespace Tree

variable {tree : Tree}

theorem nodup_links (hr : tree.Regular) :
    ((tree.root.preorder.flatMap Node.links).map Prod.fst).Nodup := by
  rw [links_fst hr, (tree.root.flatMap_children_perm.map Node.id).nodup_iff]
  exact tree.nodup_descendants.2

/-- From the last child to the first the nodes get the same links as from the first to the last. -/
theorem foldl_linkChildren (hr : tree.Regular) :
    tree.root.preorder.foldl Node.linkChildren (.replicate tree.size none) =
      tree.annotate.annotations := by
  have order : (tree.root.preorder.flatMap Node.links).Perm
      (tree.root.preorder.flatMap fun node => node.links.reverse) :=
    List.Perm.flatMap_left _ fun node _ => node.links.reverse_perm.symm
  rw [annotations_eq, writeAll_of_perm order (nodup_links hr), ← foldl_insertLink,
    List.foldl_flatMap]
  · refine List.foldl_ext _ _ _ fun table node _ => ?_
    rw [Node.linkChildren, Node.links, ← List.map_reverse, List.foldl_map]
  · intro entry hm
    rw [Array.size_replicate]
    exact fst_lt_size_of_mem_links hr (order.mem_iff.mpr hm)

theorem toList_annotations (tree : Tree) :
    tree.annotate.annotations.toList = (List.range tree.size).map tree.annotate.link? := by
  have size : tree.annotate.annotations.size = tree.size := by
    rw [annotations_eq, size_writeAll, Array.size_replicate]
  refine List.ext_getElem (by simp [size]) fun place inside _ => ?_
  rw [List.getElem_map, List.getElem_range, AnnotatedTree.link?, Array.getElem_toList,
    Array.getElem?_eq_getElem inside, Option.join_some]

theorem link?_eq_none_iff_of_any (hr : tree.Regular) {id : Nat} :
    tree.annotate.link? id = none ↔ id = tree.root.id ∨ tree.size ≤ id := by
  by_cases hk : id < tree.size
  · rw [link?_eq_none_iff hr hk, or_iff_left (by omega)]
  · refine iff_of_true ?_ (.inr (by omega))
    refine Option.eq_none_iff_forall_ne_some.mpr fun link hl => hk ?_
    exact (link_bounds hr hl).1.trans (link_bounds hr hl).2

/-- All nodes but the root have an annotation. -/
theorem annotatedCount_succ (hr : tree.Regular) :
    tree.annotate.annotatedCount + 1 = tree.size := by
  have last := tree.root_id
  have hl : ∀ id ∈ List.range tree.root.id, (Option.isSome ∘ tree.annotate.link?) id := by
    intro id hm
    have inside := List.mem_range.mp hm
    rw [Function.comp_apply, Option.isSome_iff_ne_none, ne_eq, link?_eq_none_iff hr (by omega)]
    omega
  rw [AnnotatedTree.annotatedCount, ← Array.countP_toList, toList_annotations, ← last,
    List.range_succ, List.countP_map, List.countP_append, List.countP_eq_length.mpr hl,
    List.length_range, List.countP_singleton, Function.comp_apply, link?_root hr]
  rfl

/-- A link tells of exactly one edge of the tree, and every edge is told of. -/
theorem link?_eq_some_iff_edge (hr : tree.Regular) {id : Nat} {link : ParentLink} :
    tree.annotate.link? id = some link ↔ ∃ node, tree.node? link.parent = some node ∧
      ∃ child, ⟨link.key, link.index, child⟩ ∈ node.edges ∧ child.id = id := by
  rw [link?_eq_some_iff hr]
  constructor
  · rintro ⟨node, hm, hlinks⟩
    obtain ⟨edge, he, eq⟩ := List.mem_map.mp hlinks
    obtain ⟨rfl, rfl⟩ := Prod.mk.inj eq
    exact ⟨node, node?_id hm, edge.child, he, rfl⟩
  · rintro ⟨node, hf, child, he, rfl⟩
    obtain ⟨hm, eq⟩ := node?_eq_some_iff.mp hf
    refine ⟨node, hm, List.mem_map.mpr ⟨_, he, ?_⟩⟩
    rw [eq]

/-- No node is a child along two edges. -/
theorem eq_of_child_id_eq (hr : tree.Regular) {node other : Node Nat}
    (hmem : node ∈ tree.root.preorder) (hmem' : other ∈ tree.root.preorder)
    {edge edge' : Edge (Node Nat)} (hedge : edge ∈ node.edges) (hedge' : edge' ∈ other.edges)
    (same : edge.child.id = edge'.child.id) : node = other ∧ edge = edge' := by
  have hlinked : tree.annotate.link? edge.child.id = some ⟨node.id, edge.key, edge.index⟩ :=
    (link?_eq_some_iff_edge hr).mpr ⟨node, node?_id hmem, _, hedge, rfl⟩
  have hlinked' : tree.annotate.link? edge'.child.id = some ⟨other.id, edge'.key, edge'.index⟩ :=
    (link?_eq_some_iff_edge hr).mpr ⟨other, node?_id hmem', _, hedge', rfl⟩
  rw [same, hlinked', Option.some.injEq, ParentLink.mk.injEq] at hlinked
  obtain ⟨ids, key, index⟩ := hlinked
  have ht {node : Node Nat} {edge : Edge (Node Nat)} (hmem : node ∈ tree.root.preorder)
      (hedge : edge ∈ node.edges) : edge.child ∈ tree.root.preorder :=
    Node.mem_preorder_trans hmem (Node.child_mem_preorder (Node.child_mem_of_edge hedge))
  have children := node?_id (ht hmem hedge)
  rw [same, node?_id (ht hmem' hedge')] at children
  have nodes := node?_id hmem
  rw [← ids, node?_id hmem'] at nodes
  obtain ⟨_, _, _⟩ := edge
  obtain ⟨_, _, _⟩ := edge'
  cases key
  cases index
  cases children
  cases nodes
  exact ⟨rfl, rfl⟩

/-- The loop that annotates a lowered tree ends once it has visited every node, each of them one
time, and what it leaves is every edge of the tree read from the child. -/
theorem annotate_inverts_edges {value : Json} (h : Tree.ofJson value = .ok tree) :
    (∀ rounds last,
      Walk.run? tree Node.linkChildren rounds (.start tree (.replicate tree.size none)) =
          some last ∧ last.pending = [] ↔
        rounds = tree.size ∧
          last = ⟨tree.root.preorder.map Node.id, [], tree.annotate.annotations⟩) ∧
    (tree.root.preorder.map Node.id).Perm (List.range tree.size) ∧
    (∀ id link, tree.annotate.link? id = some link ↔ ∃ node, tree.node? link.parent = some node ∧
      ∃ child, ⟨link.key, link.index, child⟩ ∈ node.edges ∧ child.id = id) ∧
    (∀ id, tree.annotate.link? id = none ↔ id = tree.root.id ∨ tree.size ≤ id) ∧
    tree.annotate.annotatedCount + 1 = tree.size := by
  have hr := regular_of_ofJson h
  refine ⟨fun rounds last => ?_, ?_, fun id link => link?_eq_some_iff_edge hr,
    fun id => link?_eq_none_iff_of_any hr, annotatedCount_succ hr⟩
  · rw [Walk.finished_iff hr, foldl_linkChildren hr]
  · rw [← map_id_postorder]
    exact (tree.root.postorder_perm_preorder.map Node.id).symm

/-- Six rounds, and the list in the fourth node has its second child after a hole. -/
theorem annotate_inverts_edges_of_sparseSample :
    ∃ tree, ofJson sparseSample = .ok tree ∧
      (∃ last, Walk.run? tree Node.linkChildren 6 (.start tree (.replicate tree.size none)) =
          some last ∧ last.pending = [] ∧ last.visited = [5, 4, 3, 0, 2, 1]) ∧
      (∃ node, tree.node? 3 = some node ∧
        ∃ child, ⟨"elements", some 2, child⟩ ∈ node.edges ∧ child.id = 2) ∧
      tree.annotate.annotatedCount = 5 := by
  obtain ⟨tree, hj, facts⟩ := exists_of_ofJson
    (f := fun tree => (tree.size, tree.root.preorder.map Node.id, tree.annotate.link? 2))
    (b := (6, [5, 4, 3, 0, 2, 1], some ⟨3, "elements", some 2⟩))
    (by decide +kernel : (ofJson sparseSample).toOption.map _ = some _)
  simp only [Prod.mk.injEq] at facts
  obtain ⟨size, order, link⟩ := facts
  obtain ⟨loop, -, links, -, count⟩ := annotate_inverts_edges hj
  obtain ⟨ends, he⟩ := (loop 6 _).mpr ⟨size.symm, rfl⟩
  exact ⟨tree, hj, ⟨_, ends, he, order⟩, (links 2 _).mp link, by omega⟩

end Tree

end SyntaxMarkup
