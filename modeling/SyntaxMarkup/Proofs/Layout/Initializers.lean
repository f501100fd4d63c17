import SyntaxMarkup.Proofs.Layout.Nesting
import SyntaxMarkup.Proofs.Tree.Grammar

namespace SyntaxMarkup

namespace Node

open Brackets

variable {node : Node Nat}

/-- Where the node at an edge is written, the parenthesis of the header is open around the first
part of it. -/
def Heads (node : Node Nat) (written : Part) (around : List Char) : Prop :=
  ∃ edge ∈ node.edges, edge.child.part = written ∧ (edge.key = "init" → around = ['('])

theorem heads_forStatement (hr : node.Regular) (loops : node.kind = .forStatement)
    (place : Place) : Piece.Nests false node.Heads [] (node.pieces node.parts place) (· = []) := by
  have hl := congrArg Kind.fields? loops
  have hf := fits_parts hr hl
  have edges := @exists_edge_of_part node _ hr hl
  generalize node.parts = slots at hf edges
  repeat cases ‹Slot.Fits _ _›
  rename_i init test update body
  have hw : node.pieces [.maybe init, .maybe test, .maybe update, .one body] place =
      Template.pieces .forStatement [.maybe init, .maybe test, .maybe update, .one body] := by
    simp only [pieces, loops]
  rw [hw, Template.nests_forStatement]
  refine ⟨fun part hm => ?_, ?_, rfl⟩
  · rcases List.mem_append.mp hm with hm | hu
    · rcases List.mem_append.mp hm with hi | ht
      · obtain ⟨edge, he, -, eq⟩ := edges List.mem_cons_self hi
        exact ⟨edge, he, eq, fun _ => rfl⟩
      · obtain ⟨edge, he, -, eq⟩ := edges (.tail _ List.mem_cons_self) ht
        exact ⟨edge, he, eq, fun _ => rfl⟩
    · obtain ⟨edge, he, -, eq⟩ := edges (.tail _ (.tail _ List.mem_cons_self)) hu
      exact ⟨edge, he, eq, fun _ => rfl⟩
  · obtain ⟨edge, he, key, eq⟩ :=
      edges (.tail _ (.tail _ (.tail _ List.mem_cons_self))) List.mem_cons_self
    exact ⟨edge, he, eq, fun hi => by simp [key] at hi⟩

end Node

namespace Tree

open Brackets

variable {tree : Tree}

/-- Around a node in the first part of a header there is the parenthesis of the header, and further
brackets exactly if a place on the way to the node from that part encloses it: the header adds none
of its own, for an `in` either. -/
theorem bracketsAround?_init {value : Json} (h : Tree.ofJson value = .ok tree)
    {options : RenderOptions} (neutral : options.IsNeutral) {id : Nat} {node : Node Nat}
    (found : tree.node? id = some node) (loops : node.kind = .forStatement)
    {edge : Edge (Node Nat)} (isEdge : edge ∈ node.edges) (isInit : edge.key = "init")
    {below : Node Nat} (isBelow : below ∈ edge.child.preorder) {u w v : Nat}
    (own : (tree.render options).nodeFor? u = some id)
    (own' : (tree.render options).nodeFor? w = some edge.child.id)
    (own'' : (tree.render options).nodeFor? v = some below.id) :
    ∃ around, (tree.render options).bracketsAround? u v = some (around ++ ['(']) ∧
      (tree.render options).bracketsAround? w v = some around ∧
      (around = [] ↔ edge.child.Exposes below) := by
  have hregular := regular_of_ofJson h
  obtain ⟨hm, rfl⟩ := node?_eq_some_iff.mp found
  have hregular' (other) (isBelow : other ∈ node.preorder) : other.Regular :=
    hregular other (Node.mem_preorder_trans hm isBelow)
  have hchild := Node.child_of_edge (hregular node hm) isEdge
  have hb' := Node.mem_preorder_of_child hchild isBelow
  have hd : node.Distinct := Node.Distinct.of_mem tree.nodup_ids hm
  obtain ⟨place, level, label, title, hstands, hopened⟩ :=
    exists_stands_of_below hregular hm hb' own''
  have hprogram := not_isProgram_of_nodeFor? hregular hm own
  have hprogram' := not_isProgram_of_nodeFor? hregular
    (Node.mem_preorder_trans hm (Node.child_mem_preorder hchild)) own'
  have hprogram'' := not_isProgram_of_nodeFor? hregular (Node.mem_preorder_trans hm hb') own''
  have other : below ≠ node := fun eq => hd.ne_of_child hchild isBelow (congrArg Node.id eq)
  -- the child in which the node is met is the first part of the header
  obtain ⟨child, hchild', at_, deeper, hpiece, hin, hopened⟩ :=
    Node.exists_piece_of_below hregular' hd hb' other hopened
  obtain rfl := hd.eq_of_child (hregular node hm) hchild hchild' isBelow hin
  obtain ⟨before, after, label, title, around, events, inner, hexposed⟩ :=
    Node.exists_before neutral (fun below h =>
      hregular' below (Node.mem_preorder_of_child hchild h)) (hd.child hchild) isBelow
      hprogram'' hopened
  obtain ⟨before', after', outer, events', whole, edge', he', part, heads⟩ :=
    Node.exists_before_of_piece neutral hregular'
      (Node.heads_forStatement (hregular node hm) loops place) hpiece events inner
  have same : edge'.child = edge.child := congrArg Computed.node part
  obtain rfl := hd.eq_of_edge (hregular node hm) isEdge he' isBelow (same ▸ isBelow)
  obtain rfl := heads isInit
  have hstands' := hstands.of_piece hregular hpiece
  refine ⟨around, ?_, ?_, hexposed⟩
  · rw [hstands.bracketsAround?_eq hregular hprogram own own'' events', whole]
  · rw [hstands'.bracketsAround?_eq hregular hprogram' own' own'' events, inner]

def initSample : Json :=
  .ofNode "Program" [("body", .array [.ofNode "ForStatement" [
    ("init", .ofNode "VariableDeclaration" [("kind", .string "var"), ("declarations", .array [
      .ofNode "VariableDeclarator" [("id", .ofNode "Identifier" [("name", .string "x")]),
        ("init", .ofNode "BinaryExpression" [("operator", .string "in"),
          ("left", .ofNode "Identifier" [("name", .string "a")]),
          ("right", .ofNode "Identifier" [("name", .string "b")])])]])]),
    ("body", .ofNode "EmptyStatement" [])]])]

theorem exists_initSample :
    ∃ tree node edge below, Tree.ofJson initSample = .ok tree ∧ tree.node? 7 = some node ∧
      node.kind = .forStatement ∧ edge ∈ node.edges ∧ edge.key = "init" ∧
      below ∈ edge.child.preorder ∧ below.kind = .binaryExpression .member ∧
      (tree.render {}).nodeFor? 0 = some 7 ∧
      (tree.render {}).nodeFor? 1 = some edge.child.id ∧
      (tree.render {}).nodeFor? 4 = some below.id ∧
      (tree.render {}).bracketsAround? 1 4 = some [] := by
  obtain ⟨tree, hj, facts⟩ := exists_of_ofJson
    (f := fun tree => ((tree.node? 7).any fun node => node.kind == .forStatement &&
        node.edges.any fun edge => edge.key == "init" && edge.child.id == 5 &&
          edge.child.preorder.any fun below =>
            below.kind == .binaryExpression .member && below.id == 3,
      ((tree.render {}).nodeFor? 0, (tree.render {}).nodeFor? 1, (tree.render {}).nodeFor? 4) ==
        (some 7, some 5, some 3),
      (tree.render {}).bracketsAround? 1 4 == some []))
    (b := (true, true, true))
    (by decide +kernel : (ofJson initSample).toOption.map _ = some _)
  simp only [Prod.mk.injEq, Option.any_eq_true, List.any_eq_true, Bool.and_eq_true,
    beq_iff_eq] at facts
  obtain ⟨⟨node, hf, loops, edge, he, ⟨key, part⟩, below, hb, hi, number⟩,
    ⟨hown, hown', hown''⟩, bare⟩ := facts
  exact ⟨tree, node, edge, below, hj, hf, loops, he, key, hb, hi, hown,
    part ▸ hown', number ▸ hown'', bare⟩

/-- In `for (var x = a in b;;) ;` only the parenthesis of the header is around the `in`. -/
theorem bracketsAround?_of_initSample :
    ∃ tree node edge below, Tree.ofJson initSample = .ok tree ∧ ({} : RenderOptions).IsNeutral ∧
      tree.node? 7 = some node ∧ node.kind = .forStatement ∧ edge ∈ node.edges ∧
      edge.key = "init" ∧ below ∈ edge.child.preorder ∧
      below.kind = .binaryExpression .member ∧ (tree.render {}).nodeFor? 0 = some 7 ∧
      (tree.render {}).nodeFor? 1 = some edge.child.id ∧
      (tree.render {}).nodeFor? 4 = some below.id ∧
      (tree.render {}).bracketsAround? 0 4 = some ['('] ∧ edge.child.Exposes below := by
  obtain ⟨tree, node, edge, below, hj, hf, loops, he, key, hb, hi, hown, hown',
    hown'', bare⟩ := exists_initSample
  have hneutral : ({} : RenderOptions).IsNeutral := by decide
  obtain ⟨around, outer, inner, hexposed⟩ :=
    bracketsAround?_init hj hneutral hf loops he key hb hown hown' hown''
  obtain rfl : around = [] := Option.some.inj (inner.symm.trans bare)
  exact ⟨tree, node, edge, below, hj, hneutral, hf, loops, he, key, hb, hi, hown,
    hown', hown'', outer, hexposed.mp rfl⟩

/-- Not every `in` in the first part of a header has brackets around it in that part: the header
may read as that of another loop. -/
theorem not_enclosed_init :
    ¬ ∀ (value : Json) (tree : Tree), Tree.ofJson value = .ok tree →
      ∀ id node, tree.node? id = some node → node.kind = .forStatement →
      ∀ edge ∈ node.edges, edge.key = "init" →
      ∀ below ∈ edge.child.preorder, below.kind = .binaryExpression .member →
      ∀ w v, (tree.render {}).nodeFor? w = some edge.child.id →
        (tree.render {}).nodeFor? v = some below.id →
          (tree.render {}).bracketsAround? w v ≠ some [] := by
  intro enclosed
  obtain ⟨tree, node, edge, below, hj, hf, loops, he, key, hb, hi, -, hown, hown',
    bare⟩ := exists_initSample
  exact enclosed initSample tree hj 7 node hf loops edge he key below hb hi 1 4 hown hown' bare

end Tree

end SyntaxMarkup
