import SyntaxMarkup.Proofs.Layout.Placeholders
import SyntaxMarkup.Proofs.Tree.Walk

namespace SyntaxMarkup

namespace Piece

theorem share_mem_links {pieces : List Piece} {node target : Nat} :
    .share node target ∈ links pieces ↔ .share node target ∈ pieces := by
  simp [links, isLink]

theorem share_not_mem_plains (node target : Nat) (parts : List Part) :
    .share node target ∉ plains parts := by
  simp [plains]

end Piece

def Event.isShare : Event → Bool
  | share _ _ => true
  | _ => false

namespace Node

/-- Whether the text of a node lets one node have the unit of another one. -/
inductive Lends (node : Node Nat) : (borrower lender : Node Nat) → Prop
  | placeholder {below : Node Nat} (unknown : node.kind.isUnknown = true)
      (mem : below ∈ node.descendants) : node.Lends below node
  | shorthand {computed : Bool} {key value : Node Nat}
      (ofKind : node.kind = .property .init false true computed)
      (shape : node.slots = [.one key, .one value]) : node.Lends key value.named
  | specifier {name other : Node Nat}
      (ofKind : node.kind = .importSpecifier ∨ node.kind = .exportSpecifier)
      (shape : node.slots = [.one name, .one other]) (same : name.sameName other = true) :
      node.Lends other name

variable {node : Node Nat} {borrower lender : Nat}

theorem share_not_mem_method {computed : Bool} {key value : Part} :
    .share borrower lender ∉ Piece.links (Piece.method computed key value) := by
  rw [Piece.links_method]
  simp

theorem share_not_mem_interleave {quasis expressions : List Part} :
    .share borrower lender ∉ Piece.links (Template.interleave quasis expressions) := by
  obtain ⟨order, links, -⟩ := Template.links_interleave quasis expressions
  rw [links]
  exact Piece.share_not_mem_plains _ _ _

theorem share_mem_renamed {name other : Node Nat}
    (hm : .share borrower lender ∈ Piece.links (Piece.renamed name.part other.part)) :
    name.sameName other = true ∧ other.id = borrower ∧ name.id = lender := by
  rw [Piece.share_mem_links, Piece.renamed] at hm
  split at hm
  next same =>
    simp only [Piece.plain, List.mem_append, List.mem_singleton, reduceCtorEq, false_or,
      Piece.share.injEq] at hm
    exact ⟨same, hm.1.symm, hm.2.symm⟩
  next => simp [Piece.plain, Piece.lit] at hm

theorem lends_of_template (hr : node.Regular) {fields : List (String × Arity)}
    (hl : node.kind.fields? = some fields)
    (hm : .share borrower lender ∈ Piece.links (Template.pieces node.kind node.parts)) :
    ∃ below other, node.Lends below other ∧ below.id = borrower ∧ other.id = lender := by
  cases selective : Template.isSelective node.kind with
  | false =>
    rw [links_of_not_selective hr hl selective] at hm
    simp [seat] at hm
  | true =>
    -- of the types that choose among their children three share units
    have hf := fits_slots hr hl
    generalize shape : node.slots = slots at hf
    generalize hk : node.kind = kind at selective hl hm
    rw [parts, shape] at hm
    cases kind with
    | templateLiteral =>
      cases hl
      repeat cases ‹Slot.Fits _ _›
      simp [Slot.map, Template.pieces, share_not_mem_interleave] at hm
    | importDeclaration =>
      cases hl
      repeat cases ‹Slot.Fits _ _›
      simp only [List.map_cons, List.map_nil, Slot.map, Template.links_importDeclaration] at hm
      exact absurd hm (Piece.share_not_mem_plains _ _ _)
    | exportNamedDeclaration =>
      cases hl
      repeat cases ‹Slot.Fits _ _›
      rename_i declaration _ _
      cases declaration <;>
        simp [Slot.map, Template.pieces, Piece.share_not_mem_plains] at hm
    | importSpecifier =>
      cases hl
      repeat cases ‹Slot.Fits _ _›
      obtain ⟨same, ids⟩ := share_mem_renamed hm
      exact ⟨_, _, .specifier (.inl hk) shape same, ids⟩
    | exportSpecifier =>
      cases hl
      repeat cases ‹Slot.Fits _ _›
      obtain ⟨same, ids⟩ := share_mem_renamed hm
      exact ⟨_, _, .specifier (.inr hk) shape same, ids⟩
    | methodDefinition kind computed static =>
      cases hl
      repeat cases ‹Slot.Fits _ _›
      simp only [List.map_cons, List.map_nil, Slot.map, Template.links_methodDefinition] at hm
      exact absurd hm share_not_mem_method
    | property kind isMethod shorthand computed =>
      cases hl
      repeat cases ‹Slot.Fits _ _›
      simp only [List.map_cons, List.map_nil, Slot.map] at hm
      by_cases plain : kind = .init ∧ isMethod = false
      · obtain ⟨rfl, rfl⟩ := plain
        cases shorthand with
        | false => simp [Template.pieces] at hm
        | true =>
          obtain ⟨ids, targets⟩ : borrower = _ ∧ lender = _ := by simpa [Template.pieces] using hm
          exact ⟨_, _, .shorthand hk shape, ids.symm, targets.symm⟩
      · rw [Template.links_property plain] at hm
        exact absurd hm share_not_mem_method
    | _ => cases selective

/-- What the text of a node lets share a unit is what the node lends. -/
theorem lends_of_pieces (hr : node.Regular) {place : Place}
    (hm : .share borrower lender ∈ node.pieces node.parts place) :
    ∃ below other, node.Lends below other ∧ below.id = borrower ∧ other.id = lender := by
  cases hl : node.kind.fields? with
  | none =>
    have hu := Kind.fields?_eq_none.mp hl
    rw [pieces_of_unknown hu] at hm
    obtain ⟨below, hb, eq⟩ := List.mem_map.mp ((List.mem_cons.mp hm).resolve_left nofun)
    cases eq
    exact ⟨below, node, .placeholder hu hb, rfl, rfl⟩
  | some fields =>
    rw [← Piece.share_mem_links] at hm
    unfold pieces at hm
    split at hm
    next => simp [Piece.share_not_mem_plains] at hm
    next =>
      rw [Piece.links_parameters] at hm
      exact absurd hm (Piece.share_not_mem_plains _ _ _)
    next hk => simp [hk, Kind.fields?] at hl
    next => exact lends_of_template hr hl hm

/-- A name that lends its unit to another one spells the same. -/
theorem exists_name_of_sameName {name other : Node Nat} (same : name.sameName other = true) :
    ∃ text, name.kind = .identifier text ∧ other.kind = .identifier text := by
  unfold sameName at same
  split at same
  next text text' hn hother => exact ⟨text, hn, hother.trans (by rw [beq_iff_eq.mp same])⟩
  next => cases same

theorem edges_of_two {fields : String × String} {first second : Node Nat} (hr : node.Regular)
    (hl : node.kind.fields? = some [(fields.1, .one), (fields.2, .one)])
    (shape : node.slots = [.one first, .one second]) :
    node.edges = [⟨fields.1, none, first⟩, ⟨fields.2, none, second⟩] := by
  rw [edges_eq_zip hr hl, shape]
  rfl

theorem leavesOut_of_unknown (hu : node.kind.isUnknown = true) (edge : Edge (Node Nat)) :
    node.leavesOut edge = true := by
  unfold Kind.isUnknown at hu
  split at hu
  next hk => rw [leavesOut, hk]
  next => cases hu

theorem Lends.mem_preorder {below other : Node Nat} (hlends : node.Lends below other) :
    below ∈ node.preorder := by
  cases hlends with
  | placeholder _ hm => exact mem_preorder_of_mem_descendants hm
  | shorthand _ shape => exact child_mem_preorder (by simp [children, shape, Slot.children])
  | specifier _ shape => exact child_mem_preorder (by simp [children, shape, Slot.children])

/-- A name that shares a unit is left out by its parent. -/
theorem Lends.exists_edge {below other : Node Nat} (hr : node.Regular)
    (hlends : node.Lends below other) (hk : node.kind.isUnknown = false) :
    ∃ edge ∈ node.edges, edge.child = below ∧ node.leavesOut edge = true := by
  cases hlends with
  | placeholder hu => cases hk.symm.trans hu
  | shorthand hkind shape =>
    have edges := @edges_of_two node ("key", "value") _ _ hr
      (congrArg Kind.fields? hkind) shape
    exact ⟨⟨"key", none, below⟩, by simp [edges], rfl, by simp [leavesOut, hkind]⟩
  | specifier hkind shape same =>
    rcases hkind with hkind | hkind
    · have edges := @edges_of_two node ("imported", "local") _ _ hr
        (congrArg Kind.fields? hkind) shape
      exact ⟨⟨"local", none, below⟩, by simp [edges], rfl, by simp [leavesOut, hkind, shape, same]⟩
    · have edges := @edges_of_two node ("local", "exported") _ _ hr
        (congrArg Kind.fields? hkind) shape
      exact ⟨⟨"exported", none, below⟩, by simp [edges], rfl,
        by simp [leavesOut, hkind, shape, same]⟩

end Node

namespace Tree

variable {tree : Tree} {options : RenderOptions} {node parent : Node Nat} {place at_ : Place}
  {level deep : Nat}

/-- A node that stands in the text is below no node of unknown type. -/
theorem Stands.not_mem_descendants (hr : tree.Regular) (hs : tree.Stands node place level)
    {top : Node Nat} (hm : top ∈ tree.root.preorder) (hu : top.kind.isUnknown = true) :
    node ∉ top.descendants := by
  intro below
  rw [← top.flatMap_children_perm.mem_iff] at below
  obtain ⟨other, hother, hc⟩ := List.mem_flatMap.mp below
  have ht := Node.mem_preorder_trans hm hother
  induction hs generalizing other with
  | root =>
    obtain ⟨link, hl, -⟩ := exists_link_of_child hr ht hc
    cases (link?_root hr).symm.trans hl
  | @child node place level edge hs hedge hkept ih =>
    rw [← Node.map_child_edges (hr other ht)] at hc
    obtain ⟨edge', hedge', same⟩ := List.mem_map.mp hc
    obtain ⟨rfl, -⟩ := eq_of_child_id_eq hr (hs.mem_preorder hr) ht hedge hedge'
      (congrArg Node.id same.symm)
    rw [Node.preorder_eq_cons] at hother
    rcases List.mem_cons.mp hother with rfl | hother
    · rw [Node.omits, Node.leavesOut_of_unknown hu] at hkept
      cases hkept
    · rw [← top.flatMap_children_perm.mem_iff] at hother
      obtain ⟨above, ha, hc⟩ := List.mem_flatMap.mp hother
      exact ih (List.mem_flatMap.mpr ⟨above, ha, hc⟩) above ha hc
        (Node.mem_preorder_trans hm ha)

/-- A node that stands in the text is lent no unit. -/
theorem Stands.not_lent (hr : tree.Regular) (hstands : tree.Stands node place level)
    (hstands' : tree.Stands parent at_ deep) {lender : Node Nat} : ¬parent.Lends node lender := by
  intro hlends
  have hm := hstands'.mem_preorder hr
  cases hu : parent.kind.isUnknown with
  | true =>
    cases hlends with
    | placeholder _ below => exact hstands.not_mem_descendants hr hm hu below
    | shorthand hk => simp [hk, Kind.isUnknown] at hu
    | specifier hk =>
      rcases hk with hk | hk <;> simp [hk, Kind.isUnknown] at hu
  | false =>
    obtain ⟨edge, hedge, rfl, out⟩ := hlends.exists_edge (hr parent hm) hu
    generalize child : edge.child = node at hstands
    cases hstands with
    | root =>
      obtain ⟨link, hl, -⟩ :=
        exists_link_of_child hr hm (Node.child_mem_of_edge hedge)
      rw [child, link?_root hr] at hl
      cases hl
    | child hstands hedge' hkept =>
      obtain ⟨rfl, rfl⟩ := eq_of_child_id_eq hr hm (hstands.mem_preorder hr) hedge
        hedge' (congrArg Node.id child)
      rw [Node.omits, out] at hkept
      cases hkept

/-- The node that lends its unit stands in the text. -/
theorem Stands.exists_stands_of_lends (hr : tree.Regular)
    (hs : tree.Stands node place level) {borrower lender : Node Nat}
    (hlends : node.Lends borrower lender) : ∃ at_ deep, tree.Stands lender at_ deep := by
  have hm := hs.mem_preorder hr
  cases hlends with
  | placeholder => exact ⟨place, level, hs⟩
  | @shorthand computed _ value hk shape =>
    have edges := @Node.edges_of_two node ("key", "value") _ _ (hr node hm)
      (congrArg Kind.fields? hk) shape
    have hw : tree.Stands value _ _ := hs.child
      (show (⟨"value", none, value⟩ : Edge (Node Nat)) ∈ node.edges by simp [edges])
      (by simp [Node.omits, Node.leavesOut, hk, Kind.isFunctionExpression])
    have ht := hw.mem_preorder hr
    unfold Node.named
    split
    next left rest hv shape =>
      have he : (⟨"left", none, left⟩ : Edge (Node Nat)) ∈ value.edges := by
        rw [Node.edges_eq_zip (hr value ht) (congrArg Kind.fields? hv), shape]
        exact List.mem_cons_self
      exact ⟨_, _, hw.child he
        (by simp [Node.omits, Node.leavesOut, hv, Kind.isFunctionExpression])⟩
    next => exact ⟨_, _, hw⟩
  | specifier hk shape same =>
    rcases hk with hk | hk
    · have edges := @Node.edges_of_two node ("imported", "local") _ _ (hr node hm)
        (congrArg Kind.fields? hk) shape
      exact ⟨_, _, hs.child
        (show (⟨"imported", none, lender⟩ : Edge (Node Nat)) ∈ node.edges by simp [edges])
        (by simp [Node.omits, Node.leavesOut, hk, shape, Kind.isFunctionExpression])⟩
    · have edges := @Node.edges_of_two node ("local", "exported") _ _ (hr node hm)
        (congrArg Kind.fields? hk) shape
      exact ⟨_, _, hs.child
        (show (⟨"local", none, lender⟩ : Edge (Node Nat)) ∈ node.edges by simp [edges])
        (by simp [Node.omits, Node.leavesOut, hk, shape, Kind.isFunctionExpression])⟩

/-- A unit is shared where a node that stands in the text lends one. -/
theorem exists_stands_of_share (hr : tree.Regular) {borrower lender : Nat}
    (shared : .share borrower lender ∈ tree.events) :
    ∃ parent at_ deep below other, tree.Stands parent at_ deep ∧ parent.Lends below other ∧
      below.id = borrower ∧ other.id = lender := by
  obtain ⟨parent, at_, deep, hs, ⟨-, eq | eq⟩ | ⟨piece, hpiece, fromPiece, hc⟩⟩ :=
    exists_stands_of_event hr shared
  · cases eq
  · cases eq
  · cases piece with
    | text | pad => simp [Piece.events] at fromPiece
    | child => exact absurd rfl (hc _ _ _)
    | share =>
      cases List.mem_singleton.mp fromPiece
      obtain ⟨below, other, hlends, ids⟩ :=
        Node.lends_of_pieces (hr parent (hs.mem_preorder hr)) hpiece
      exact ⟨parent, at_, deep, below, other, hs, hlends, ids⟩

/-- As no node is named twice, a node that shares a unit has that of its lender in the end. -/
theorem unitFor?_of_share (hr : tree.Regular) {borrower lender u : Nat}
    (shared : .share borrower lender ∈ tree.events)
    (hshown : (tree.render options).unitFor? borrower = some u) :
    (tree.render options).unitFor? lender = some u := by
  obtain ⟨before, after, events⟩ := List.append_of_mem shared
  have hd := nodup_named hr
  rw [events, List.flatMap_append, List.flatMap_cons, List.nodup_append,
    List.nodup_append] at hd
  obtain ⟨-, ⟨-, -, later⟩, earlier⟩ := hd
  let start := before.foldl (Builder.apply options.indent) {}
  have final (node : Nat) : (tree.render options).unitFor? node =
      (after.foldl (Builder.apply options.indent) (start.share borrower lender)).unitFor? node := by
    have whole : (tree.render options).unitFor? node =
        (tree.events.foldl (Builder.apply options.indent) {}).unitFor? node := rfl
    rw [whole, events, List.foldl_append]
    rfl
  have new : start.unitFor? borrower = none := by
    refine (Builder.unitFor?_run {} fun hn => ?_).trans (by simp [Builder.unitFor?])
    exact earlier _ hn _ (List.mem_append_left _ List.mem_cons_self) rfl
  have hk : start.unitFor? lender = some u := by
    rw [final, Builder.unitFor?_run _ fun hn => later _ List.mem_cons_self _ hn rfl,
      Builder.unitFor?_share, if_pos rfl, new, Option.or_none] at hshown
    exact hshown
  -- what has a unit by now was named before, and is not named again
  have hn : lender ∈ before.flatMap Event.named := by
    refine (Builder.named_of_shows_run (Option.isSome_of_eq_some hk)).resolve_left ?_
    simp [Builder.Shows, Builder.unitFor?]
  have other : borrower ≠ lender := by
    rintro rfl
    cases new.symm.trans hk
  rw [final, Builder.unitFor?_run _ fun again =>
    earlier _ hn _ (List.mem_append_right _ again) rfl, Builder.unitFor?_share, if_neg other,
    hk]

/-- A node with a unit is named when the unit is opened, or when it is shared. -/
theorem named_of_unitFor? {id u : Nat} (hshown : (tree.render options).unitFor? id = some u) :
    (∃ label title, .openUnit label title id ∈ tree.events) ∨
      ∃ lender, .share id lender ∈ tree.events := by
  have hn : id ∈ tree.events.flatMap Event.named := by
    rcases Builder.named_of_shows_run (Option.isSome_of_eq_some hshown) with never | hn
    · simp [Builder.Shows, Builder.unitFor?] at never
    · exact hn
  obtain ⟨event, hevent, hn⟩ := List.mem_flatMap.mp hn
  cases event with
  | openUnit label title node =>
    cases List.mem_singleton.mp hn
    exact .inl ⟨label, title, hevent⟩
  | share node lender =>
    cases List.mem_singleton.mp hn
    exact .inr ⟨lender, hevent⟩
  | text | pad | close => cases hn

/-- The unit of a node that stands in the text is its own. -/
theorem Stands.nodeFor?_of_unitFor? (hr : tree.Regular) (hstands : tree.Stands node place level)
    {u : Nat} (hshown : (tree.render options).unitFor? node.id = some u) :
    (tree.render options).nodeFor? u = some node.id := by
  have hk := node?_id (hstands.mem_preorder hr)
  rcases named_of_unitFor? hshown with ⟨label, title, hopened⟩ | ⟨lender, shared⟩
  · obtain ⟨other, at_, deep, hstands', same, hp, -⟩ :=
      exists_stands_of_openUnit hr hopened
    obtain ⟨v, unit, hf, hn, -⟩ := hstands'.exists_unit hr hp options
    have ho : (tree.render options).nodeFor? v = some node.id := by
      rw [Document.nodeFor?, hf, ← same]
      exact hn
    cases (unitFor?_of_nodeFor? hr ho).symm.trans hshown
    exact ho
  · obtain ⟨parent, at_, deep, below, other, hstands', hlends, same, -⟩ :=
      exists_stands_of_share hr shared
    have ht := Node.mem_preorder_trans (hstands'.mem_preorder hr) hlends.mem_preorder
    rw [← same, node?_id ht] at hk
    cases hk
    exact absurd hlends (hstands.not_lent hr hstands')

/-- The text of an identifier is its name. -/
theorem Stands.unitText_of_identifier (hr : tree.Regular)
    (hs : tree.Stands node place level) {name : String} (hk : node.kind = .identifier name)
    {u : Nat} (ho : (tree.render options).nodeFor? u = some node.id) :
    (tree.render options).unitText u = name := by
  have hp : node.kind.isProgram = false := by rw [hk]; rfl
  obtain ⟨v, unit, hf, hn, -, text⟩ := hs.exists_unit hr hp options
  have same : (tree.render options).nodeFor? v = some node.id := by
    rw [Document.nodeFor?, hf]
    exact hn
  have pieces : node.pieces node.parts place = Piece.lit name := by
    simp [Node.pieces, hk, Template.pieces]
  rw [eq_of_nodeFor? hr ho same, text, Node.events_eq, Node.framed_eq, hp,
    if_neg Bool.false_ne_true, Event.texts_unit, pieces]
  exact String.empty_append

/-- Whether a node is of unknown type and below no other such node. -/
def Outermost (tree : Tree) (top : Node Nat) : Prop :=
  top.kind.isUnknown = true ∧
    ∀ other ∈ tree.root.preorder, other.kind.isUnknown = true → top ∉ other.descendants

/-- What is below a placeholder has the placeholder as its unit. -/
theorem outermost_of_nodeFor? (hr : tree.Regular) {top : Node Nat}
    (hm : top ∈ tree.root.preorder) (hu : top.kind.isUnknown = true) {v : Nat}
    (ho : (tree.render options).nodeFor? v = some top.id) :
    tree.Outermost top ∧
      ∀ below ∈ top.descendants, (tree.render options).unitFor? below.id = some v := by
  obtain ⟨other, place, level, hs, same, -⟩ := exists_stands_of_nodeFor? hr ho
  have hk := node?_id (hs.mem_preorder hr)
  rw [same, node?_id hm] at hk
  cases hk
  refine ⟨⟨hu, fun other hother => hs.not_mem_descendants hr hother⟩,
    fun below hb => ?_⟩
  obtain ⟨u, all⟩ := hs.unitFor?_of_unknown hr hu options
  have ho := unitFor?_of_nodeFor? hr ho
  rw [all top top.self_mem_preorder] at ho
  rw [all below (Node.mem_preorder_of_mem_descendants hb), ho]

/-- Sharing units takes no unit away from its node: without it all units have the same nodes. -/
theorem nodeFor?_without_shares (tree : Tree) (options : RenderOptions) (u : Nat) :
    ((tree.events.filter (!·.isShare)).foldl (Builder.apply options.indent) {}).finish.nodeFor? u =
      (tree.render options).nodeFor? u := by
  have calls : Event.calls options.indent (tree.events.filter (!·.isShare)) =
      Event.calls options.indent tree.events := by
    rw [Event.calls, List.filterMap_filter]
    refine List.filterMap_congr fun event _ => ?_
    cases event <;> rfl
  have marks := Builder.marks_run options.indent {} (tree.events.filter (!·.isShare))
  rw [calls] at marks
  have units := Builder.opened_of_marks marks
  rw [← Builder.opened_of_marks (tree.marks_written options)] at units
  have nodes (document : Document) : document.nodeFor? u =
      ((document.units.map fun unit => (unit.label, unit.title, unit.node))[u]?).bind (·.2.2) := by
    rw [List.getElem?_map, Option.bind_map]
    rfl
  rw [nodes, nodes, units]
  rfl

/-- How a node comes to have the own unit of another node: it is below the outermost node of
unknown type, or it is the key of a shorthand property, which has the unit of what the value names,
or the second of two equal names in an import or export, which has that of the first. -/
inductive Borrows (tree : Tree) (document : Document) (node : Node Nat) (u : Nat) : Prop
  | placeholder {top : Node Nat} (outermost : tree.Outermost top) (below : node ∈ top.descendants)
      (own : document.nodeFor? u = some top.id)
  | shorthand {property written : Node Nat} {computed : Bool} (mem : property ∈ tree.root.preorder)
      (ofKind : property.kind = .property .init false true computed)
      (shape : property.slots = [.one node, .one written])
      (own : document.nodeFor? u = some written.named.id)
  | specifier {specifier first : Node Nat} {name : String} (mem : specifier ∈ tree.root.preorder)
      (ofKind : specifier.kind = .importSpecifier ∨ specifier.kind = .exportSpecifier)
      (shape : specifier.slots = [.one first, .one node]) (ofFirst : first.kind = .identifier name)
      (ofNode : node.kind = .identifier name) (own : document.nodeFor? u = some first.id)
      (text : document.unitText u = name)

theorem borrows_of_unitFor? (hr : tree.Regular) (hm : node ∈ tree.root.preorder) {u : Nat}
    (hshown : (tree.render options).unitFor? node.id = some u)
    (other : (tree.render options).nodeFor? u ≠ some node.id) :
    tree.Borrows (tree.render options) node u := by
  rcases named_of_unitFor? hshown with ⟨label, title, hopened⟩ | ⟨id, shared⟩
  · obtain ⟨node', place, level, hs, same, -⟩ := exists_stands_of_openUnit hr hopened
    rw [← same] at hshown other
    exact absurd (hs.nodeFor?_of_unitFor? hr hshown) other
  · obtain ⟨parent, at_, deep, below, lender, hs, hlends, same, rfl⟩ :=
      exists_stands_of_share hr shared
    obtain ⟨place, level, hw⟩ := hs.exists_stands_of_lends hr hlends
    have ho := hw.nodeFor?_of_unitFor? hr (unitFor?_of_share hr shared hshown)
    have hp := hs.mem_preorder hr
    have hk := node?_id (Node.mem_preorder_trans hp hlends.mem_preorder)
    rw [same, node?_id hm] at hk
    cases hk
    cases hlends with
    | placeholder hu below =>
      exact .placeholder (outermost_of_nodeFor? hr hp hu ho).1 below ho
    | shorthand hkind shape => exact .shorthand hp hkind shape ho
    | specifier hkind shape equal =>
      obtain ⟨name, hf, hsecond⟩ := Node.exists_name_of_sameName equal
      exact .specifier hp hkind shape hf hsecond ho
        (hw.unitText_of_identifier hr hf ho)

/-- In the markup of a lowered tree what is below a placeholder has the placeholder as its unit,
and the placeholder is that of the outermost node of unknown type. A node that has a unit but not
one of its own borrows it in one of three ways. No unit has another node than it would have if none
were shared. -/
theorem shared_units_of_ofJson {value : Json} (h : Tree.ofJson value = .ok tree)
    (options : RenderOptions) :
    (∀ top ∈ tree.root.preorder, top.kind.isUnknown = true → ∀ v,
      (tree.render options).nodeFor? v = some top.id → tree.Outermost top ∧
        ∀ below ∈ top.descendants, (tree.render options).unitFor? below.id = some v) ∧
    (∀ node ∈ tree.root.preorder, ∀ u, (tree.render options).unitFor? node.id = some u →
      (tree.render options).nodeFor? u ≠ some node.id →
        tree.Borrows (tree.render options) node u) ∧
    ∀ u, ((tree.events.filter (!·.isShare)).foldl (Builder.apply options.indent) {}).finish.nodeFor?
      u = (tree.render options).nodeFor? u := by
  have hr := regular_of_ofJson h
  exact ⟨fun top hm hu v ho => outermost_of_nodeFor? hr hm hu ho,
    fun node hm u hshown other => borrows_of_unitFor? hr hm hshown other,
    tree.nodeFor?_without_shares options⟩

def lentSample : Json :=
  .ofNode "Program" [("body", .array [.ofNode "ImportDeclaration"
      [("specifiers", .array [.ofNode "ImportSpecifier"
          [("imported", .ofNode "Identifier" [("name", .string "a")]),
            ("local", .ofNode "Identifier" [("name", .string "a")])]]),
        ("source", .ofNode "Literal" [("raw", .string "'m'")])],
    .ofNode "ArrowFunctionExpression" [("params", .array [.ofNode "ObjectPattern"
        [("properties", .array [.ofNode "Property" [("shorthand", .bool true),
          ("key", .ofNode "Identifier" [("name", .string "b")]),
          ("value", .ofNode "AssignmentPattern" [
            ("left", .ofNode "Identifier" [("name", .string "b")]),
            ("right", .ofNode "JSXElement" [("name",
              .ofNode "Identifier" [("name", .string "c")])])])]])]]),
      ("body", .ofNode "Identifier" [("name", .string "b")])]])]

/-- The second name of the import, the key in the parameter and the node below its default. -/
theorem shared_units_of_lentSample :
    ∃ tree, ofJson lentSample = .ok tree ∧
      (∀ entry ∈ [(1, 2), (5, 8), (7, 9)], ∃ node, tree.node? entry.1 = some node ∧
        (tree.render {}).unitFor? entry.1 = some entry.2 ∧
        tree.Borrows (tree.render {}) node entry.2) ∧
      ∃ top, tree.node? 8 = some top ∧ tree.Outermost top := by
  obtain ⟨tree, hj, facts⟩ := exists_of_ofJson
    (f := fun tree => (tree.size, [1, 5, 7].map (tree.render {}).unitFor?,
      [2, 8, 9].map (tree.render {}).nodeFor?, (tree.node? 8).map (·.kind.isUnknown)))
    (b := (15, [some 2, some 8, some 9], [some 0, some 6, some 8], some true))
    (by decide +kernel : (ofJson lentSample).toOption.map _ = some _)
  simp only [Prod.mk.injEq, List.map_cons, List.map_nil, List.cons.injEq, and_true,
    Option.map_eq_some_iff] at facts
  obtain ⟨size, ⟨binding, key, inner⟩, ⟨imported, left, placeholder⟩, top, hf, hu⟩ := facts
  obtain ⟨below, borrowed, -⟩ := shared_units_of_ofJson hj {}
  have borrows {id u other : Nat} (hk : id < tree.size)
      (hshown : (tree.render {}).unitFor? id = some u)
      (ho : (tree.render {}).nodeFor? u = some other) (ne : other ≠ id) :
      ∃ node, tree.node? id = some node ∧ (tree.render {}).unitFor? id = some u ∧
        tree.Borrows (tree.render {}) node u := by
    obtain ⟨node, hm, rfl, hf⟩ := exists_node hk
    exact ⟨node, hf, hshown, borrowed node hm u hshown fun same =>
      ne (Option.some.inj (ho.symm.trans same))⟩
  obtain ⟨hm, same⟩ := node?_eq_some_iff.mp hf
  refine ⟨tree, hj, ?_, top, hf, (below top hm hu 9 (same ▸ placeholder)).1⟩
  simp only [List.forall_mem_cons, List.not_mem_nil, false_imp_iff, implies_true, and_true]
  exact ⟨borrows (by omega) binding imported (by omega), borrows (by omega) key left (by omega),
    borrows (by omega) inner placeholder (by omega)⟩

end Tree

end SyntaxMarkup
