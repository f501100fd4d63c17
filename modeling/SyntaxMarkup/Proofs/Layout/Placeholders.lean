import SyntaxMarkup.Proofs.Layout.Presence
import SyntaxMarkup.Proofs.Layout.Standing

namespace SyntaxMarkup

namespace Builder

variable {indent : String} {builder : Builder} {target unit : Nat}

/-- Nodes that share the unit of one that is not among them get that unit, and no other node
does. -/
theorem unitFor?_shares (ho : builder.unitFor? target = some unit) {nodes : List Nat}
    (outside : target ∉ nodes) (node : Nat) :
    ((nodes.map fun node => Event.share node target).foldl (apply indent) builder).unitFor? node =
      if node ∈ nodes then some unit else builder.unitFor? node := by
  induction nodes generalizing builder with
  | nil => rfl
  | cons first rest ih =>
    obtain ⟨other, outside⟩ := not_or.mp (List.mem_cons.not.mp outside)
    have hkept : (builder.apply indent (.share first target)).unitFor? target = some unit := by
      rw [unitFor?_apply builder (by simpa [Event.named] using other), ho]
    rw [List.map_cons, List.foldl_cons, ih hkept outside, apply, unitFor?_share, ho]
    by_cases here : first = node <;> simp [here, eq_comm (a := node)]

end Builder

namespace Node

/-- Below a node, or at it, the outermost node of a type without rules is one that is shown. -/
theorem exists_unknown_mem_shown {ι : Type} {node below : Node ι} (hm : below ∈ node.preorder)
    (hu : below.kind.isUnknown = true) :
    ∃ top ∈ node.shown, top.kind.isUnknown = true ∧ below ∈ top.preorder := by
  induction node using induction with
  | step node ih =>
    rw [shown_eq]
    cases hk : node.kind.isUnknown with
    | true => exact ⟨node, List.mem_cons_self, hk, hm⟩
    | false =>
      rw [preorder_eq] at hm
      rcases List.mem_cons.mp hm with rfl | hm
      · cases hk.symm.trans hu
      · obtain ⟨child, hc, hm⟩ := List.mem_flatMap.mp hm
        obtain ⟨top, hs, facts⟩ := ih child hc hm
        exact ⟨top, .tail _ (List.mem_flatMap_of_mem hc hs), facts⟩

theorem mem_preorder_of_mem_shown {ι : Type} {node below : Node ι} (hm : below ∈ node.shown) :
    below ∈ node.preorder := by
  induction node using induction with
  | step node ih =>
    rw [shown_eq] at hm
    rcases List.mem_cons.mp hm with rfl | hm
    · exact below.self_mem_preorder
    · split at hm
      · cases hm
      · obtain ⟨child, hc, hm⟩ := List.mem_flatMap.mp hm
        exact mem_preorder_of_child hc (ih child hc hm)

end Node

namespace Tree

variable {tree : Tree}

/-- Whether a node is the outermost one of a type without rules at or above another node. -/
structure Covers (tree : Tree) (top node : Node Nat) : Prop where
  shown : top ∈ tree.root.shown
  unknown : top.kind.isUnknown = true
  below : node ∈ top.preorder

theorem Covers.mem_preorder {top node : Node Nat} (hc : tree.Covers top node) :
    top ∈ tree.root.preorder :=
  Node.mem_preorder_of_mem_shown hc.shown

/-- What is at and below a node of a type without rules has the unit of that node. -/
theorem Stands.unitFor?_of_unknown (hr : tree.Regular) {top : Node Nat} {place : Place}
    {level : Nat} (hs : tree.Stands top place level) (hu : top.kind.isUnknown = true)
    (options : RenderOptions) :
    ∃ u, ∀ below ∈ top.preorder, (tree.render options).unitFor? below.id = some u := by
  obtain ⟨before, after, eq⟩ := hs.infix_events hr
  rw [Node.events_eq, Node.framed_eq, Kind.not_isProgram_of_isUnknown hu,
    Node.written_of_unknown hu, if_neg nofun] at eq
  have hn : (tree.events.flatMap Event.named) = before.flatMap Event.named ++
      (top.preorder.map Node.id ++ after.flatMap Event.named) := by
    rw [← eq, Node.preorder_eq_cons]
    simp [Event.named, Event.named_shares, -List.map_map]
  have hd := nodup_named hr
  rw [hn] at hd
  obtain ⟨ho, -, later⟩ := List.nodup_append.mp (List.nodup_append.mp hd).2.1
  rw [Node.preorder_eq_cons, List.map_cons, List.nodup_cons] at ho
  -- the unit of the node is opened, shared, and then left alone
  let start := before.foldl (Builder.apply options.indent) {}
  let opened := start.openUnit top.kind.heading.1 top.kind.heading.2 (some top.id)
  have here : (opened.text ("/* Unknown: " ++ top.typeName ++ " */")).unitFor? top.id =
      some start.next := by
    rw [Builder.unitFor?_text, Builder.unitFor?_openUnit, if_pos rfl]
  refine ⟨start.next, fun below hm => ?_⟩
  have last : below.id ∉ (Event.close :: after).flatMap Event.named := fun again =>
    later below.id (List.mem_map_of_mem hm) below.id again rfl
  have hshown : (tree.render options).unitFor? below.id =
      (tree.events.foldl (Builder.apply options.indent) {}).unitFor? below.id := rfl
  rw [hshown, ← eq, List.append_assoc, List.append_assoc, List.foldl_append, List.foldl_append,
    List.singleton_append, Builder.unitFor?_run _ last]
  refine (Builder.unitFor?_shares here ho.1 below.id).trans ?_
  rw [Node.preorder_eq_cons] at hm
  rcases List.mem_cons.mp hm with rfl | hm
  · rw [if_neg ho.1, here]
  · exact if_pos (List.mem_map_of_mem hm)

/-- A placeholder holds the type of its node and nothing else. -/
theorem texts_of_unknown {node : Node Nat} (hu : node.kind.isUnknown = true) (indent : String)
    (place : Place) (level : Nat) :
    (Event.calls indent (node.events place level)).filterMap MarkupCall.text? =
      ["/* Unknown: " ++ node.typeName ++ " */"] := by
  have hs : Event.calls indent
      ((node.descendants.map Node.id).map fun below => .share below node.id) = [] := by
    simp [Event.calls, Event.call?]
  rw [Node.events_eq, Node.framed_eq, Kind.not_isProgram_of_isUnknown hu, if_neg Bool.false_ne_true,
    Event.texts_unit, Node.written_of_unknown hu]
  exact congrArg (fun calls => _ :: calls.filterMap MarkupCall.text?) hs

/-- No node of unknown type is dropped from the text of a lowered tree but with a child that its
parent leaves out. Such a node has a placeholder with the type of the outermost such node at or
above it, exactly if that one stands in the text. -/
theorem placeholder_of_ofJson {value : Json} {tree : Tree} (h : Tree.ofJson value = .ok tree)
    (options : RenderOptions) {id : Nat} {node : Node Nat} (found : tree.node? id = some node)
    (unknown : node.kind.isUnknown = true) :
    (∃ top, tree.Covers top node) ∧ ∀ top, tree.Covers top node →
      ((∃ place level, tree.Stands top place level) ↔
        ∃ u unit, (tree.render options).unitFor? id = some u ∧
          (tree.render options).unit? u = some unit ∧ unit.node = some top.id ∧
          unit.label = unknownLabel ∧ unit.title = some top.typeName ∧
          (tree.render options).unitText u = "/* Unknown: " ++ top.typeName ++ " */") := by
  have hr := regular_of_ofJson h
  obtain ⟨hm, rfl⟩ := node?_eq_some_iff.mp found
  obtain ⟨top, hshown, hu, below⟩ := Node.exists_unknown_mem_shown hm unknown
  refine ⟨⟨top, hshown, hu, below⟩, fun top hc => ⟨?_, ?_⟩⟩
  · rintro ⟨place, level, hs⟩
    obtain ⟨u, unit, hnumber, hn, heading, text⟩ := hs.exists_unit hr
      (Kind.not_isProgram_of_isUnknown hc.unknown) options
    have ho : (tree.render options).nodeFor? u = some top.id := by
      rw [Document.nodeFor?, hnumber]
      exact hn
    obtain ⟨v, all⟩ := hs.unitFor?_of_unknown hr hc.unknown options
    have same := (all top top.self_mem_preorder).symm.trans (unitFor?_of_nodeFor? hr ho)
    rw [Kind.heading, if_pos hc.unknown, Prod.mk.injEq] at heading
    refine ⟨u, unit, (all node hc.below).trans same, hnumber, hn, heading.1, heading.2, ?_⟩
    rw [text, texts_of_unknown hc.unknown]
    exact String.empty_append
  · rintro ⟨u, unit, -, hnumber, hn, -⟩
    have ho : (tree.render options).nodeFor? u = some top.id := by
      rw [Document.nodeFor?, hnumber]
      exact hn
    obtain ⟨other, place, level, hs, same, -⟩ := exists_stands_of_nodeFor? hr ho
    have hk := node?_id (hs.mem_preorder hr)
    rw [same, node?_id hc.mem_preorder] at hk
    cases hk
    exact ⟨place, level, hs⟩

def elementSample : Json :=
  .ofNode "Program" [("body", .array [.ofNode "ExpressionStatement" [("expression",
    .ofNode "JSXElement" [("openingElement", .ofNode "JSXOpeningElement"
      [("name", .ofNode "Identifier" [("name", .string "div")])])])]])]

/-- The inner one of two such nodes has the placeholder of the outer one, which stands. -/
theorem placeholder_of_elementSample :
    ∃ tree node top place level, Tree.ofJson elementSample = .ok tree ∧
      tree.node? 1 = some node ∧ node.kind.isUnknown = true ∧ tree.Covers top node ∧
      top.id = 2 ∧ tree.Stands top place level := by
  obtain ⟨tree, hj, facts⟩ := exists_of_ofJson
    (f := fun tree => ((tree.node? 1).map fun node => node.kind.isUnknown,
      tree.root.shown.all fun top =>
        !top.kind.isUnknown || (top.id == 2 && top.typeName == "JSXElement"),
      (tree.render {}).unitFor? 1,
      ((tree.render {}).unit? 1).any fun unit =>
        unit.node == some 2 && unit.label == unknownLabel && unit.title == some "JSXElement",
      (tree.render {}).unitText 1))
    (b := (some true, true, some 1, true, "/* Unknown: JSXElement */"))
    (by decide +kernel : (ofJson elementSample).toOption.map _ = some _)
  simp only [Prod.mk.injEq, Option.map_eq_some_iff, List.all_eq_true, Option.any_eq_true_iff_get,
    Bool.and_eq_true, beq_iff_eq] at facts
  obtain ⟨⟨node, hf, hu⟩, outer, hshown, ⟨hk, ⟨hn, label⟩, title⟩, text⟩ := facts
  obtain ⟨⟨top, hc⟩, placeholder⟩ := placeholder_of_ofJson hj {} hf hu
  have ht := outer top hc.shown
  rw [hc.unknown] at ht
  simp only [Bool.not_true, Bool.false_or, Bool.and_eq_true, beq_iff_eq] at ht
  obtain ⟨place, level, hs⟩ := (placeholder top hc).mpr ⟨1, _, hshown,
    (Option.some_get hk).symm, by rw [hn, ht.1], label, by rw [title, ht.2],
    by rw [text, ht.2]; rfl⟩
  exact ⟨tree, node, top, place, level, hj, hf, hu, hc, ht.1, hs⟩

def wildcardSample : Json :=
  .ofNode "Program" [("body", .array [.ofNode "ImportDeclaration"
    [("specifiers", .array [.ofNode "ImportWildcardSpecifier" []]),
      ("source", .ofNode "Literal" [("raw", .string "'m'")])]])]

/-- An import leaves out what it imports by a node of unknown type: no unit shows the node. -/
theorem wildcard_dropped :
    ∃ tree node, Tree.ofJson wildcardSample = .ok tree ∧ tree.node? 0 = some node ∧
      node.kind.isUnknown = true ∧ (tree.render {}).unitFor? 0 = none ∧
      (tree.render {}).text = "import  from 'm';" := by
  obtain ⟨tree, hj, facts⟩ := exists_of_ofJson
    (f := fun tree => ((tree.node? 0).map fun node => node.kind.isUnknown,
      (tree.render {}).unitFor? 0, (tree.render {}).text))
    (b := (some true, none, "import  from 'm';"))
    (by decide +kernel : (ofJson wildcardSample).toOption.map _ = some _)
  simp only [Prod.mk.injEq, Option.map_eq_some_iff] at facts
  obtain ⟨⟨node, hf, hu⟩, hidden, text⟩ := facts
  exact ⟨tree, node, hj, hf, hu, hidden, text⟩

end Tree

end SyntaxMarkup
