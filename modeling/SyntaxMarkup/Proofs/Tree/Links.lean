import SyntaxMarkup.Tree.Ancestry
import SyntaxMarkup.Proofs.Tree.Order
import Mathlib.Data.List.Nodup

namespace SyntaxMarkup

section Writes

variable {β : Type}

def writeAll (entries : List (Nat × β)) (table : Array (Option β)) : Array (Option β) :=
  entries.foldl (fun all entry => all.setIfInBounds entry.1 (some entry.2)) table

theorem writeAll_of_not_mem {entries : List (Nat × β)} {place : Nat} (table : Array (Option β))
    (h : place ∉ entries.map Prod.fst) : (writeAll entries table)[place]? = table[place]? := by
  induction entries generalizing table with
  | nil => rfl
  | cons entry rest ih =>
    rw [List.map_cons, List.mem_cons, not_or] at h
    refine (ih _ h.2).trans ?_
    rw [Array.getElem?_setIfInBounds_ne (Ne.symm h.1)]

/-- A place that is written once holds what was written. -/
theorem writeAll_of_mem {entries : List (Nat × β)} {place : Nat} {value : β}
    (table : Array (Option β)) (hd : (entries.map Prod.fst).Nodup)
    (hm : (place, value) ∈ entries) (inside : place < table.size) :
    (writeAll entries table)[place]? = some (some value) := by
  induction entries generalizing table with
  | nil => cases hm
  | cons entry rest ih =>
    obtain ⟨new, restDistinct⟩ := List.nodup_cons.mp hd
    rcases List.mem_cons.mp hm with rfl | hm
    · refine (writeAll_of_not_mem _ new).trans ?_
      rw [Array.getElem?_setIfInBounds_self_of_lt inside]
    · exact ih _ restDistinct hm (by simpa using inside)

end Writes

/-- The links that a node gives to its children, each with the number of the child. -/
def Node.links (node : Node Nat) : List (Nat × ParentLink) :=
  node.edges.map fun edge => (edge.child.id, ⟨node.id, edge.key, edge.index⟩)

namespace Tree

variable {tree : Tree}

theorem annotations_eq (tree : Tree) :
    tree.annotate.annotations =
      writeAll (tree.root.preorder.flatMap Node.links) (.replicate tree.size none) := by
  rw [writeAll, List.foldl_flatMap]
  simp only [Node.links, List.foldl_map]
  rfl

theorem links_fst (hr : tree.Regular) :
    (tree.root.preorder.flatMap Node.links).map Prod.fst =
      (tree.root.preorder.flatMap Node.children).map Node.id := by
  rw [List.map_flatMap, List.map_flatMap]
  refine List.flatMap_congr fun node hm => ?_
  rw [← Node.map_child_edges (hr node hm), Node.links, List.map_map, List.map_map]
  rfl

theorem nodup_ids (tree : Tree) : (tree.root.preorder.map Node.id).Nodup := by
  rw [← (tree.root.postorder_perm_preorder.map Node.id).nodup_iff, map_id_postorder]
  exact List.nodup_range

theorem nodup_descendants (tree : Tree) : tree.root.id ∉ tree.root.descendants.map Node.id ∧
    (tree.root.descendants.map Node.id).Nodup := by
  have ids := tree.nodup_ids
  rwa [Node.preorder_eq_cons, List.map_cons, List.nodup_cons] at ids

theorem fst_lt_size_of_mem_links (hr : tree.Regular) {entry : Nat × ParentLink}
    (hm : entry ∈ tree.root.preorder.flatMap Node.links) : entry.1 < tree.size := by
  have hk := List.mem_map_of_mem (f := Prod.fst) hm
  rw [links_fst hr] at hk
  obtain ⟨node, hc, eq⟩ := List.mem_map.mp hk
  have below := tree.root.flatMap_children_perm.mem_iff.mp hc
  rw [← eq]
  exact id_lt_size (Node.mem_preorder_of_mem_descendants below)

theorem link?_eq_some_iff (hr : tree.Regular) {id : Nat} {link : ParentLink} :
    tree.annotate.link? id = some link ↔
      ∃ node ∈ tree.root.preorder, (id, link) ∈ node.links := by
  -- no number is written twice, so no link hides an earlier one
  have hd : ((tree.root.preorder.flatMap Node.links).map Prod.fst).Nodup := by
    rw [links_fst hr, (tree.root.flatMap_children_perm.map Node.id).nodup_iff]
    exact tree.nodup_descendants.2
  have hw {entry : Nat × ParentLink} (hm : entry ∈ tree.root.preorder.flatMap Node.links) :
      (writeAll (tree.root.preorder.flatMap Node.links) (.replicate tree.size none))[entry.1]? =
        some (some entry.2) :=
    writeAll_of_mem _ hd hm (by simpa using fst_lt_size_of_mem_links hr hm)
  rw [AnnotatedTree.link?, annotations_eq, Option.join_eq_some_iff, ← List.mem_flatMap]
  constructor
  · intro h
    by_cases hk : id ∈ (tree.root.preorder.flatMap Node.links).map Prod.fst
    · obtain ⟨entry, hm, rfl⟩ := List.mem_map.mp hk
      rw [hw hm] at h
      cases h
      exact hm
    · rw [writeAll_of_not_mem _ hk, Array.getElem?_replicate] at h
      split at h <;> cases h
  · exact hw

theorem exists_link_of_child (hr : tree.Regular) {node child : Node Nat}
    (hm : node ∈ tree.root.preorder) (hc : child ∈ node.children) :
    ∃ link, tree.annotate.link? child.id = some link ∧ link.parent = node.id := by
  rw [← Node.map_child_edges (hr node hm)] at hc
  obtain ⟨edge, he, rfl⟩ := List.mem_map.mp hc
  exact ⟨_, (link?_eq_some_iff hr).mpr ⟨node, hm, List.mem_map_of_mem he⟩, rfl⟩

theorem link?_root (hr : tree.Regular) : tree.annotate.link? tree.root.id = none := by
  cases hf : tree.annotate.link? tree.root.id with
  | none => rfl
  | some link =>
    have hk := List.mem_map_of_mem (f := Prod.fst)
      (List.mem_flatMap.mpr ((link?_eq_some_iff hr).mp hf))
    rw [links_fst hr, (tree.root.flatMap_children_perm.map Node.id).mem_iff] at hk
    exact absurd hk tree.nodup_descendants.1

end Tree

def Kind.isProgram : Kind → Bool
  | program _ => true
  | _ => false

namespace AnnotatedTree

def isProgram (tree : AnnotatedTree) (id : Nat) : Bool :=
  (tree.nodes[id]?).any (·.kind.isProgram)

/-- The nearest node above another one that is not a program. -/
inductive Owner (tree : AnnotatedTree) : (id owner : Nat) → Prop
  | parent {id : Nat} {link : ParentLink} (linked : tree.link? id = some link)
      (other : tree.isProgram link.parent = false) : Owner tree id link.parent
  | above {id owner : Nat} {link : ParentLink} (linked : tree.link? id = some link)
      (program : tree.isProgram link.parent = true) (next : Owner tree link.parent owner) :
      Owner tree id owner

end AnnotatedTree

namespace Tree

variable {tree : Tree}

theorem isProgram_eq {node : Node Nat} (hm : node ∈ tree.root.preorder) :
    tree.annotate.isProgram node.id = node.kind.isProgram := by
  have hf : tree.annotate.nodes[node.id]? = some node := node?_id hm
  rw [AnnotatedTree.isProgram, hf]
  rfl

/-- A child belongs to its parent, or with a program to what the program belongs to. -/
theorem owner_child_iff (hr : tree.Regular) {node child : Node Nat}
    (hm : node ∈ tree.root.preorder) (hc : child ∈ node.children) (owner : Nat) :
    tree.annotate.Owner child.id owner ↔
      if node.kind.isProgram then tree.annotate.Owner node.id owner else owner = node.id := by
  obtain ⟨link, hlinked, eq⟩ := exists_link_of_child hr hm hc
  have program := isProgram_eq hm
  rw [← eq] at program ⊢
  constructor
  · rintro (⟨hlinked', other⟩ | ⟨hlinked', above, next⟩)
    · cases hlinked.symm.trans hlinked'
      rw [← program, other]
      exact rfl
    · cases hlinked.symm.trans hlinked'
      rw [← program, above]
      exact next
  · intro h
    split at h
    next above => exact .above hlinked (program.trans above) h
    next other =>
      rw [h]
      exact .parent hlinked (program.trans (by simpa using other))

theorem not_owner_root (hr : tree.Regular) (owner : Nat) :
    ¬tree.annotate.Owner tree.root.id owner := by
  have none := link?_root hr
  rintro (⟨hl, -⟩ | ⟨hl, -, -⟩) <;> cases none.symm.trans hl

end Tree

theorem AnnotatedTree.owner_unique {tree : AnnotatedTree} {id owner other : Nat}
    (h : tree.Owner id owner) (h' : tree.Owner id other) : owner = other := by
  induction h with
  | parent hlinked plain =>
    cases h' with
    | parent hlinked' _ => cases hlinked.symm.trans hlinked'; rfl
    | above hlinked' program _ =>
      cases hlinked.symm.trans hlinked'
      rw [plain] at program
      cases program
  | above hlinked program _ ih =>
    cases h' with
    | parent hlinked' plain =>
      cases hlinked.symm.trans hlinked'
      rw [plain] at program
      cases program
    | above hlinked' _ next =>
      cases hlinked.symm.trans hlinked'
      exact ih next

end SyntaxMarkup
