import SyntaxMarkup.Proofs.Layout.Units

namespace SyntaxMarkup

namespace Piece

theorem child_mem_links {pieces : List Piece} {part : Part} {place : Place} {deeper : Nat} :
    .child part place deeper ∈ links pieces ↔ .child part place deeper ∈ pieces := by
  simp [links, isLink]

theorem child_mem_of_links {pieces : List Piece} {parts order : List Part} {part : Part}
    {place : Place} {deeper : Nat} (h : links pieces = plains order) (perm : order.Perm parts) :
    .child part place deeper ∈ pieces ↔ .child part place deeper ∈ plains parts := by
  rw [← child_mem_links, h, plains, plains, (perm.map _).mem_iff]

end Piece

namespace Node

/-- Whether the template of a node leaves out the child at an edge. A name that is spelled once for
two nodes is that of the first. -/
def leavesOut (node : Node Nat) (edge : Edge (Node Nat)) : Bool :=
  match node.kind, node.slots with
  | .unknown _, _ => true
  | .importDeclaration, _ => edge.key == "specifiers" && !Kind.importTypes.contains edge.child.kind
  | .exportNamedDeclaration, .maybe (some _) :: _ => edge.key != "declaration"
  | .templateLiteral, .many quasis :: _ =>
    edge.key == "expressions" && edge.index.any (quasis.length ≤ ·)
  | .property .init false true _, _ => edge.key == "key"
  | .importSpecifier, [.one imported, .one binding] =>
    edge.key == "local" && imported.sameName binding
  | .exportSpecifier, [.one binding, .one exported] =>
    edge.key == "exported" && binding.sameName exported
  | _, _ => false

/-- Whether the text of a node at a place leaves out the child at an edge: a method has the name of
its key. -/
def omits (node : Node Nat) (place : Place) (edge : Edge (Node Nat)) : Bool :=
  node.leavesOut edge ||
    (place == .method && node.kind.isFunctionExpression && edge.key == "id")

theorem omits_plain (node : Node Nat) (edge : Edge (Node Nat)) :
    node.omits .plain edge = node.leavesOut edge :=
  Bool.or_false _

theorem omits_eq_leavesOut {node : Node Nat} {place : Place}
    (h : place = .method → node.kind.isFunctionExpression = false) (edge : Edge (Node Nat)) :
    node.omits place edge = node.leavesOut edge := by
  unfold omits
  cases place with
  | plain | header => exact Bool.or_false _
  | method => rw [h rfl, Bool.and_false, Bool.false_and, Bool.or_false]

/-- The piece that writes the child at an edge. -/
def seat (node : Node Nat) (edge : Edge (Node Nat)) : Piece :=
  .child edge.child.part (node.kind.placeOf edge.key edge.child.kind) (node.kind.deeperIn edge.key)

variable {node : Node Nat} {fields : List (String × Arity)}

theorem zip_slots (hr : node.Regular) (hl : node.kind.fields? = some fields) :
    fields.zip node.slots = node.fields.map fun field =>
      ((field.name, field.slot.arity), field.slot) := by
  rw [← hr fields hl, signature, slots, List.zip_map']

/-- The edges of a node, told from the fields of its type. -/
theorem edges_eq_zip (hr : node.Regular) (hl : node.kind.fields? = some fields) :
    node.edges = (fields.zip node.slots).flatMap fun (field, slot) =>
      slot.entries.map fun (index, child) => ⟨field.1, index, child⟩ := by
  rw [zip_slots hr hl, List.flatMap_map, edges, listed_eq_fields hr]

theorem links_of_not_selective (hr : node.Regular) (hl : node.kind.fields? = some fields)
    (plain : Template.isSelective node.kind = false) :
    Piece.links (Template.pieces node.kind node.parts) = node.edges.map node.seat := by
  have zipped : fields.zip node.parts = node.fields.map fun field =>
      ((field.name, field.slot.arity), field.slot.map part) := by
    rw [parts, List.zip_map_right, zip_slots hr hl, List.map_map]
    rfl
  rw [Template.links_pieces plain hl (fits_parts hr hl), zipped, List.flatMap_map, edges,
    listed_eq_fields hr, List.map_flatMap]
  refine List.flatMap_congr fun field _ => ?_
  dsimp only
  rw [Slot.children_map, ← Slot.map_snd_entries, List.map_map, List.map_map, List.map_map]
  rfl

/-- The children that pieces write are those at the edges that a node keeps at a place. -/
def Keeps (node : Node Nat) (place : Place) (pieces : List Piece) : Prop :=
  ∀ written at_ deeper, .child written at_ deeper ∈ pieces ↔
    ∃ edge ∈ node.edges, node.omits place edge = false ∧ .child written at_ deeper = node.seat edge

theorem exists_edge_iff (hr : node.Regular) (hl : node.kind.fields? = some fields)
    {P : Edge (Node Nat) → Prop} : (∃ edge ∈ node.edges, P edge) ↔
      ∃ entry ∈ fields.zip node.slots, ∃ index child, (index, child) ∈ entry.2.entries ∧
        P ⟨entry.1.1, index, child⟩ := by
  rw [edges_eq_zip hr hl]
  simp only [List.mem_flatMap, List.mem_map]
  constructor
  · rintro ⟨_, ⟨entry, hm, ⟨index, child⟩, hslot, rfl⟩, hh⟩
    exact ⟨entry, hm, index, child, hslot, hh⟩
  · rintro ⟨entry, hm, index, child, hslot, hh⟩
    exact ⟨_, ⟨entry, hm, _, hslot, rfl⟩, hh⟩

theorem exists_mem_entries {slot : Slot (Node Nat)} {child : Node Nat} :
    (∃ index, (index, child) ∈ slot.entries) ↔ child ∈ slot.children := by
  rw [← Slot.map_snd_entries]
  simp

theorem mem_take_iff {children : List (Node Nat)} {room : Nat} {child : Node Nat} :
    (∃ index, (index, child) ∈ (Slot.many children).entries ∧ index.any (room ≤ ·) = false) ↔
      child ∈ children.take room := by
  rw [List.mem_iff_getElem? (l := children.take room)]
  simp only [Slot.entries, List.mem_map, Prod.exists, List.mem_zipIdx_iff_getElem?,
    List.getElem?_take]
  constructor
  · rintro ⟨_, ⟨child, index, hf, ⟨⟩⟩, inside⟩
    exact ⟨index, by rw [if_pos (by simpa using inside), hf]⟩
  · rintro ⟨index, hf⟩
    split at hf
    next inside => exact ⟨some index, ⟨child, index, hf, rfl⟩, by simpa using inside⟩
    next => cases hf

/-- Where a type writes its children plainly, it is enough to know which ones. -/
theorem keeps_of_plains {place : Place} {pieces : List Piece} (kept : List (Node Nat))
    (hm : ∀ written at_ deeper, .child written at_ deeper ∈ pieces ↔
      .child written at_ deeper ∈ Piece.plains (kept.map part))
    (usual : ∀ field child, node.kind.placeOf field child = .plain)
    (level : ∀ field, node.kind.deeperIn field = 0)
    (edges : ∀ child, (∃ edge ∈ node.edges, node.omits place edge = false ∧ edge.child = child) ↔
      child ∈ kept) : node.Keeps place pieces := by
  intro written at_ deeper
  simp only [hm, Piece.plains, List.map_map, List.mem_map, Function.comp_apply, ← edges, seat,
    usual, level]
  constructor
  · rintro ⟨_, ⟨edge, he, kept, rfl⟩, eq⟩
    exact ⟨edge, he, kept, eq.symm⟩
  · rintro ⟨edge, he, kept, eq⟩
    exact ⟨_, ⟨edge, he, kept, rfl⟩, eq.symm⟩

theorem child_mem_renamed (name other : Node Nat) (written : Part) (at_ : Place) (deeper : Nat) :
    .child written at_ deeper ∈ Piece.renamed name.part other.part ↔
      .child written at_ deeper ∈ Piece.plains
        ((if name.sameName other then [name] else [name, other]).map part) := by
  cases same : name.sameName other <;> simp [Piece.renamed, same, Piece.plain, Piece.lit]

section Selective

variable (hr : node.Regular)
include hr

theorem keeps_templateLiteral {quasis expressions : List (Node Nat)}
    (hk : node.kind = .templateLiteral)
    (shape : node.slots = [.many quasis, .many expressions]) :
    node.Keeps .plain (Template.pieces .templateLiteral node.parts) := by
  obtain ⟨order, eq, perm⟩ :=
    Template.links_interleave (quasis.map part) (expressions.map part)
  have links : Piece.links (Template.pieces .templateLiteral node.parts) = Piece.plains order := by
    simp [parts, shape, Slot.map, Template.pieces, eq]
  rw [List.length_map, ← List.map_take, ← List.map_append] at perm
  refine keeps_of_plains _ (fun _ _ _ => Piece.child_mem_of_links links perm)
    (by simp [hk, Kind.placeOf]) (by simp [hk, Kind.deeperIn]) fun child => ?_
  rw [exists_edge_iff hr (congrArg Kind.fields? hk)]
  simp [hk, shape, omits, leavesOut, exists_mem_entries, Slot.children, ← mem_take_iff]

theorem keeps_importDeclaration {specifiers : List (Node Nat)} {source : Node Nat}
    (hk : node.kind = .importDeclaration)
    (shape : node.slots = [.many specifiers, .one source]) :
    node.Keeps .plain (Template.pieces .importDeclaration node.parts) := by
  have links := Template.links_importDeclaration (specifiers.map part) source.part
  have perm := Template.specifiers_perm (specifiers.map part)
  rw [parts, shape]
  refine keeps_of_plains (specifiers.filter (Kind.importTypes.contains ·.kind) ++ [source])
    (fun _ _ _ => Piece.child_mem_of_links links ?_)
    (by simp [hk, Kind.placeOf]) (by simp [hk, Kind.deeperIn]) fun child => ?_
  · have split := List.filter_append_perm
      (fun part : Part => Kind.importTypes.contains part.node.kind) (specifiers.map part)
    have inside := (List.perm_append_right_iff _).mp (perm.trans split.symm)
    rw [List.filter_map] at inside
    rw [List.map_append]
    exact inside.append_right [source.part]
  rw [exists_edge_iff hr (congrArg Kind.fields? hk)]
  simp [hk, shape, omits, leavesOut, exists_mem_entries, Slot.children]

theorem keeps_exportNamedDeclaration {declaration source : Option (Node Nat)}
    {specifiers : List (Node Nat)} (hk : node.kind = .exportNamedDeclaration)
    (shape : node.slots = [.maybe declaration, .many specifiers, .maybe source]) :
    node.Keeps .plain (Template.pieces .exportNamedDeclaration node.parts) := by
  have links : Piece.links (Template.pieces .exportNamedDeclaration node.parts) = Piece.plains
      ((declaration.elim (specifiers ++ source.toList) fun only => [only]).map part) := by
    cases declaration <;>
      simp [parts, shape, Slot.map, Template.pieces, Option.toList_map]
  refine keeps_of_plains _ (fun _ _ _ => Piece.child_mem_of_links links (.refl _))
    (by simp [hk, Kind.placeOf]) (by simp [hk, Kind.deeperIn]) fun child => ?_
  rw [exists_edge_iff hr (congrArg Kind.fields? hk)]
  cases declaration <;> simp [hk, shape, omits, leavesOut, exists_mem_entries, Slot.children]

theorem keeps_importSpecifier {imported binding : Node Nat}
    (hk : node.kind = .importSpecifier) (shape : node.slots = [.one imported, .one binding]) :
    node.Keeps .plain (Template.pieces .importSpecifier node.parts) := by
  rw [parts, shape]
  refine keeps_of_plains _ (child_mem_renamed imported binding) (by simp [hk, Kind.placeOf])
    (by simp [hk, Kind.deeperIn]) fun child => ?_
  rw [exists_edge_iff hr (congrArg Kind.fields? hk)]
  simp [hk, shape, omits, leavesOut, exists_mem_entries, Slot.children]
  split <;> simp_all

theorem keeps_exportSpecifier {binding exported : Node Nat}
    (hk : node.kind = .exportSpecifier) (shape : node.slots = [.one binding, .one exported]) :
    node.Keeps .plain (Template.pieces .exportSpecifier node.parts) := by
  rw [parts, shape]
  refine keeps_of_plains _ (child_mem_renamed binding exported) (by simp [hk, Kind.placeOf])
    (by simp [hk, Kind.deeperIn]) fun child => ?_
  rw [exists_edge_iff hr (congrArg Kind.fields? hk)]
  simp [hk, shape, omits, leavesOut, exists_mem_entries, Slot.children]
  split <;> simp_all

theorem keeps_methodDefinition {kind : MethodKind} {computed static : Bool} {key value : Node Nat}
    (hk : node.kind = .methodDefinition kind computed static)
    (shape : node.slots = [.one key, .one value]) :
    node.Keeps .plain (Template.pieces (.methodDefinition kind computed static) node.parts) := by
  intro written at_ deeper
  rw [parts, shape, ← Piece.child_mem_links,
    exists_edge_iff hr (congrArg Kind.fields? hk)]
  cases function : value.kind.isFunctionExpression <;>
    simp [Template.links_methodDefinition, hk, shape, omits, leavesOut, seat, Kind.placeOf,
      Kind.deeperIn, Slot.map, Slot.entries, function]

theorem keeps_property {kind : PropertyKind} {isMethod shorthand computed : Bool}
    {key value : Node Nat} (hk : node.kind = .property kind isMethod shorthand computed)
    (shape : node.slots = [.one key, .one value]) :
    node.Keeps .plain
      (Template.pieces (.property kind isMethod shorthand computed) node.parts) := by
  intro written at_ deeper
  rw [parts, shape, ← Piece.child_mem_links,
    exists_edge_iff hr (congrArg Kind.fields? hk)]
  by_cases plain : kind = .init ∧ isMethod = false
  · obtain ⟨rfl, rfl⟩ := plain
    cases shorthand <;>
      simp [Template.pieces, hk, shape, omits, leavesOut, seat, Kind.placeOf, Kind.deeperIn,
        Slot.map, Slot.entries]
  · have hkept (edge : Edge (Node Nat)) : node.omits .plain edge = false := by
      cases kind <;> cases isMethod <;>
        first | exact absurd ⟨rfl, rfl⟩ plain | simp [omits, leavesOut, hk]
    have place (field : String) (child : Kind) : node.kind.placeOf field child =
        if field == "value" && child.isFunctionExpression then .method else .plain := by
      cases kind <;> cases isMethod <;>
        first | exact absurd ⟨rfl, rfl⟩ plain | simp [Kind.placeOf, hk]
    have level (field : String) : node.kind.deeperIn field = 0 := by simp [Kind.deeperIn, hk]
    cases function : value.kind.isFunctionExpression <;>
      simp [Template.links_property plain, shape, hkept, seat, place, level, Slot.map, Slot.entries,
        function]

end Selective

theorem keeps_template (hr : node.Regular) (hl : node.kind.fields? = some fields) :
    node.Keeps .plain (Template.pieces node.kind node.parts) := by
  cases plain : Template.isSelective node.kind with
  | false =>
    intro written at_ deeper
    have hkept (edge : Edge (Node Nat)) : node.omits .plain edge = false := by
      rw [omits_plain, leavesOut]
      split <;> simp_all [Template.isSelective, Kind.fields?]
    rw [← Piece.child_mem_links, links_of_not_selective hr hl plain, List.mem_map]
    simp [hkept, eq_comm]
  | true =>
    -- these types choose among their children
    have hf := fits_slots hr hl
    generalize shape : node.slots = slots at hf
    generalize hk : node.kind = kind at plain hl ⊢
    cases kind with
    | templateLiteral =>
      cases hl
      repeat cases ‹Slot.Fits _ _›
      exact keeps_templateLiteral hr hk shape
    | importDeclaration =>
      cases hl
      repeat cases ‹Slot.Fits _ _›
      exact keeps_importDeclaration hr hk shape
    | exportNamedDeclaration =>
      cases hl
      repeat cases ‹Slot.Fits _ _›
      exact keeps_exportNamedDeclaration hr hk shape
    | importSpecifier =>
      cases hl
      repeat cases ‹Slot.Fits _ _›
      exact keeps_importSpecifier hr hk shape
    | exportSpecifier =>
      cases hl
      repeat cases ‹Slot.Fits _ _›
      exact keeps_exportSpecifier hr hk shape
    | methodDefinition kind computed static =>
      cases hl
      repeat cases ‹Slot.Fits _ _›
      exact keeps_methodDefinition hr hk shape
    | property kind isMethod shorthand computed =>
      cases hl
      repeat cases ‹Slot.Fits _ _›
      exact keeps_property hr hk shape
    | _ => cases plain

/-- The children that a node writes at a place are those at the edges that it keeps there. -/
theorem keeps_pieces (hr : node.Regular) (place : Place) :
    node.Keeps place (node.pieces node.parts place) := by
  intro written at_ deeper
  unfold pieces
  split
  next kind declarations hk eq =>
    have template := keeps_template hr (congrArg Kind.fields? hk) written at_ deeper
    rw [← Piece.child_mem_links, hk, eq] at template
    rw [← Piece.child_mem_links]
    simpa [hk, omits, leavesOut, Template.pieces] using template
  next async generator slot params body hk eq =>
    obtain ⟨name, params, body, shape⟩ := slots_of_functionExpression hr hk
    rw [parts, shape] at eq
    cases eq
    refine keeps_of_plains (params ++ [body]) (fun _ _ _ => ?_)
      (by simp [hk, Kind.placeOf]) (by simp [hk, Kind.deeperIn]) (fun child => ?_)
      written at_ deeper
    · exact Piece.child_mem_of_links (Piece.links_parameters _ _) (by simp)
    · rw [exists_edge_iff hr (congrArg Kind.fields? hk)]
      simp [hk, shape, omits, leavesOut, Kind.isFunctionExpression, exists_mem_entries,
        Slot.children]
  next typeName _ _ hk =>
    simp [Template.pieces, Piece.lit, omits, leavesOut, hk]
  next place _ _ _ hunknown hh hm =>
    cases hl : node.kind.fields? with
    | none =>
      have hu := Kind.fields?_eq_none.mp hl
      unfold Kind.isUnknown at hu
      split at hu
      next hk => exact absurd hk (hunknown _)
      next => cases hu
    | some fields =>
      have template := keeps_template hr hl written at_ deeper
      simp only [omits_plain] at template
      rw [template]
      have usual : place = .method → node.kind.isFunctionExpression = false := by
        intro hmethod
        unfold Kind.isFunctionExpression
        split
        next async generator hk =>
          obtain ⟨name, params, body, shape⟩ := slots_of_functionExpression hr hk
          refine absurd hmethod (hm async generator (.maybe (name.map part))
            (params.map part) body.part hk ?_)
          rw [parts, shape]
          rfl
        next => rfl
      simp only [omits_eq_leavesOut usual]

end Node

end SyntaxMarkup
