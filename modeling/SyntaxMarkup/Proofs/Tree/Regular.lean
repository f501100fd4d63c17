import SyntaxMarkup.Tree.Lowering
import SyntaxMarkup.Proofs.Tree.Numbering
import Mathlib.Data.List.Forall2

namespace SyntaxMarkup

section Results

variable {α β ε : Type}

theorem bind_eq_ok {x : Except ε α} {f : α → Except ε β} {b : β} (h : x >>= f = .ok b) :
    ∃ a, x = .ok a ∧ f a = .ok b := by
  cases x with
  | error => cases h
  | ok a => exact ⟨a, rfl, h⟩

theorem map_eq_ok {x : Except ε α} {f : α → β} {b : β} (h : f <$> x = .ok b) :
    ∃ a, x = .ok a ∧ f a = b := by
  cases x with
  | error => cases h
  | ok a => exact ⟨a, rfl, Except.ok.inj h⟩

theorem mapM_eq_ok {f : α → Except ε β} {items : List α} {results : List β}
    (h : items.mapM f = .ok results) :
    List.Forall₂ (fun item result => f item = .ok result) items results := by
  induction items generalizing results with
  | nil =>
    cases h
    exact .nil
  | cons item rest ih =>
    rw [List.mapM_cons] at h
    obtain ⟨result, first, h⟩ := bind_eq_ok h
    obtain ⟨others, later, h⟩ := bind_eq_ok h
    cases h
    exact .cons first (ih later)

theorem mapM_of_forall₂ {f : α → Except ε β} {items : List α} {results : List β}
    (each : List.Forall₂ (fun item result => f item = .ok result) items results) :
    items.mapM f = .ok results := by
  induction each with
  | nil => rfl
  | cons first _ ih =>
    rw [List.mapM_cons, first, ih]
    rfl

theorem exists_of_forall₂ {R : α → β → Prop} {as : List α} {bs : List β}
    (h : List.Forall₂ R as bs) {b : β} (hm : b ∈ bs) : ∃ a ∈ as, R a b := by
  induction h with
  | nil => cases hm
  | @cons a b' as bs first _ ih =>
    rcases List.mem_cons.mp hm with rfl | hm
    · exact ⟨a, List.mem_cons_self, first⟩
    · obtain ⟨a', hrest, h⟩ := ih hm
      exact ⟨a', List.mem_cons_of_mem _ hrest, h⟩

def Json.ofNode (typeName : String) (members : List (String × Json)) : Json :=
  .ofMembers (("type", .string typeName) :: members)

/-- What can be told of the tree of a value is told of a tree. -/
theorem exists_of_ofJson {value : Json} {f : Tree → β} {b : β}
    (h : (Tree.ofJson value).toOption.map f = some b) :
    ∃ tree, Tree.ofJson value = .ok tree ∧ f tree = b := by
  cases hj : Tree.ofJson value with
  | error e =>
    rw [hj] at h
    cases h
  | ok tree =>
    rw [hj] at h
    exact ⟨tree, rfl, Option.some.inj h⟩

end Results

def Reading.parts (reading : Reading) : List Described :=
  reading.toDescribed :: reading.items.getD []

namespace NodeObject

variable {object : NodeObject} {readings : List (String × Reading)}

theorem literal_eq_ok {kind : Kind} (h : object.literal = .ok kind) :
    ∃ raw regex bigint, kind = .literal raw regex bigint := by
  obtain ⟨regex, _, h⟩ := bind_eq_ok h
  obtain ⟨raw, _, h⟩ := bind_eq_ok h
  cases h
  exact ⟨raw, regex, _, rfl⟩

theorem templateElement_eq_ok {kind : Kind} (h : object.templateElement = .ok kind) :
    ∃ raw cooked tail, kind = .templateElement raw cooked tail := by
  obtain ⟨value, _, h⟩ := bind_eq_ok h
  split at h
  · cases h
    exact ⟨_, _, _, rfl⟩
  · cases h

/-- A form asks for the fields that its kind lists, and for those that hold children if the kind
lists none. -/
def Fits (object : NodeObject) (form : Form) : Prop :=
  ∀ kind, form.kind = .ok kind →
    kind.typeName = object.typeName ∧ form.children = kind.fields?.getD object.unknownChildren

theorem fits_of_ok {kind : Kind} {children : List (String × Arity)} {first : Bool}
    (hn : kind.typeName = object.typeName)
    (hl : children = kind.fields?.getD object.unknownChildren) :
    object.Fits ⟨.ok kind, children, first⟩ := by
  rintro _ ⟨⟩
  exact ⟨hn, hl⟩

theorem fits_of_map {α : Type} {make : α → Kind} {x : Except TreeError α}
    {children : List (String × Arity)} {first : Bool}
    (hn : ∀ a, (make a).typeName = object.typeName)
    (hl : ∀ a, children = (make a).fields?.getD object.unknownChildren) :
    object.Fits ⟨make <$> x, children, first⟩ := by
  intro kind hmade
  obtain ⟨a, _, rfl⟩ := map_eq_ok hmade
  exact ⟨hn a, hl a⟩

theorem fits_form (object : NodeObject) : object.Fits object.form := by
  unfold form
  split
  -- a literal and a template element look into several fields to find their kind
  case h_4 =>
    intro kind hmade
    obtain ⟨raw, regex, bigint, rfl⟩ := literal_eq_ok hmade
    exact ⟨Eq.symm ‹_›, rfl⟩
  case h_55 =>
    intro kind hmade
    obtain ⟨raw, cooked, tail, rfl⟩ := templateElement_eq_ok hmade
    exact ⟨Eq.symm ‹_›, rfl⟩
  -- a type without rules
  case h_73 => exact fits_of_ok rfl rfl
  all_goals first
    | exact fits_of_ok (Eq.symm ‹_›) rfl
    | exact fits_of_map (fun _ => Eq.symm ‹_›) fun _ => rfl

/-- What lowering an object gives, whichever of its fields and its kind is read first. -/
theorem node_eq_ok {node : Node Unit} (h : object.node readings = .ok node) :
    object.form.kind = .ok node.kind ∧ object.childFields readings = .ok node.fields ∧
      node.span = object.span? := by
  unfold NodeObject.node at h
  split at h
  · obtain ⟨fields, children, h⟩ := bind_eq_ok h
    obtain ⟨kind, hmade, h⟩ := bind_eq_ok h
    cases h
    exact ⟨hmade, children, rfl⟩
  · obtain ⟨kind, hmade, h⟩ := bind_eq_ok h
    obtain ⟨fields, children, h⟩ := bind_eq_ok h
    cases h
    exact ⟨hmade, children, rfl⟩

theorem child_eq_ok {name : String} {demand : Demand} {part : Described} {node : Node Unit}
    (h : object.child name demand part = .ok node) : part.tree = .ok node := by
  unfold child at h
  split at h
  · exact h
  · cases h

theorem items_eq_ok {name : String} {reading : Reading} {items : List Described}
    (h : object.items name reading = .ok items) : reading.items = some items := by
  unfold NodeObject.items at h
  split at h
  · cases h
    assumption
  · cases h

theorem sparseChild_eq_ok {name : String} {part : Described} {node : Node Unit}
    (h : object.sparseChild name part = .ok (some node)) : part.tree = .ok node := by
  unfold sparseChild at h
  split at h
  · cases h
  · obtain ⟨child, h, eq⟩ := map_eq_ok h
    cases eq
    exact child_eq_ok h

/-- A slot holds as many children as it should, each from a part of the field's value. -/
theorem slot_eq_ok {name : String} {arity : Arity} {slot : Slot (Node Unit)}
    (h : object.slot readings name arity = .ok slot) :
    slot.arity = arity ∧ ∀ child ∈ slot.children,
      ∃ reading ∈ reading? readings name, ∃ part ∈ reading.parts, part.tree = .ok child := by
  have hi {reading : Reading} {items : List Described} {part : Described}
      (hl : reading.items = some items) (hm : part ∈ items) : part ∈ reading.parts := by
    simp [Reading.parts, hl, hm]
  unfold NodeObject.slot at h
  split at h
  case h_1 =>
    cases h
    exact ⟨rfl, fun _ hm => nomatch hm⟩
  case h_2 => cases h
  case h_3 reading hf =>
    obtain ⟨node, hmade, rfl⟩ := map_eq_ok h
    refine ⟨rfl, fun child hm => ⟨reading, hf, reading.toDescribed, List.mem_cons_self, ?_⟩⟩
    rw [List.mem_singleton.mp hm]
    exact child_eq_ok hmade
  case h_4 reading hf =>
    obtain ⟨node, hmade, rfl⟩ := map_eq_ok h
    refine ⟨rfl, fun child hm => ⟨reading, hf, reading.toDescribed, List.mem_cons_self, ?_⟩⟩
    rw [List.mem_singleton.mp hm]
    exact child_eq_ok hmade
  case h_5 reading hf =>
    obtain ⟨items, hl, h⟩ := bind_eq_ok h
    obtain ⟨nodes, hmade, h⟩ := bind_eq_ok h
    cases h
    refine ⟨rfl, fun child hm => ⟨reading, hf, ?_⟩⟩
    obtain ⟨part, hitems, hj⟩ := exists_of_forall₂ (mapM_eq_ok hmade) hm
    exact ⟨part, hi (items_eq_ok hl) hitems, child_eq_ok hj⟩
  case h_6 reading hf =>
    obtain ⟨items, hl, h⟩ := bind_eq_ok h
    obtain ⟨nodes, hmade, h⟩ := bind_eq_ok h
    cases h
    refine ⟨rfl, fun child hm => ⟨reading, hf, ?_⟩⟩
    obtain ⟨item, hslot, hpresent⟩ := List.mem_filterMap.mp hm
    obtain ⟨part, hitems, hj⟩ := exists_of_forall₂ (mapM_eq_ok hmade) hslot
    rw [show item = some child from hpresent] at hj
    exact ⟨part, hi (items_eq_ok hl) hitems, sparseChild_eq_ok hj⟩

theorem childFields_eq_ok {fields : List (Field (Node Unit))}
    (h : object.childFields readings = .ok fields) :
    List.Forall₂ (fun entry field => entry.1 = field.name ∧
      object.slot readings entry.1 entry.2 = .ok field.slot) object.form.children fields := by
  refine (mapM_eq_ok h).imp fun entry field hmade => ?_
  obtain ⟨name, arity⟩ := entry
  change Field.mk name <$> object.slot readings name arity = .ok field at hmade
  obtain ⟨slot, hr, rfl⟩ := map_eq_ok hmade
  exact ⟨rfl, hr⟩

theorem signature_eq {node : Node Unit} (h : object.node readings = .ok node) :
    node.signature = object.form.children := by
  obtain ⟨-, children, -⟩ := node_eq_ok h
  have each := (childFields_eq_ok children).imp fun entry field hmade =>
    show entry = (field.name, field.slot.arity) by
      rw [← hmade.1, (slot_eq_ok hmade.2).1]
  have same : List.Forall₂ (· = ·) object.form.children node.signature :=
    List.forall₂_map_right_iff.mpr each
  rw [List.forall₂_eq_eq_eq] at same
  exact same.symm

theorem children_from_parts {node child : Node Unit} (h : object.node readings = .ok node)
    (hc : child ∈ node.children) :
    ∃ name reading, (name, reading) ∈ readings ∧ ∃ part ∈ reading.parts, part.tree = .ok child := by
  obtain ⟨-, children, -⟩ := node_eq_ok h
  rw [Node.children_eq_flatMap] at hc
  obtain ⟨field, hfields, hslot⟩ := List.mem_flatMap.mp hc
  obtain ⟨entry, -, -, hmade⟩ := exists_of_forall₂ (childFields_eq_ok children) hfields
  obtain ⟨reading, hf, part, hp, hj⟩ := (slot_eq_ok hmade).2 child hslot
  obtain ⟨hf, -⟩ := Option.filter_eq_some_iff.mp hf
  obtain ⟨before, after, readings_eq, -⟩ := List.lookup_eq_some_iff.mp hf
  have hm : (entry.1, reading) ∈ readings := by simp [readings_eq]
  exact ⟨entry.1, reading, hm, part, hp, hj⟩

end NodeObject

section Lowering

variable {motive : Node Unit → Prop}

mutual

/-- What holds of the node of an object once it holds of its children holds of every tree that is
lowered. -/
theorem Json.lowered_induction
    (step : ∀ object readings node, NodeObject.node object readings = .ok node →
      (∀ child ∈ node.children, motive child) → motive node) :
    ∀ value : Json, ∀ part ∈ value.reading.parts, ∀ node, part.tree = .ok node → motive node
  | .object members, part, hm, node, h => by
    cases List.mem_singleton.mp hm
    cases hd : (Json.object members).asNode? with
    | none => simp [Json.reading, hd] at h
    | some object =>
      have hmade : object.node (Json.readMembers members) = .ok node := by
        simpa [Json.reading, hd] using h
      refine step object _ node hmade fun child hc => ?_
      obtain ⟨name, reading, hmembers, part, hp, hj⟩ :=
        NodeObject.children_from_parts hmade hc
      exact Json.lowered_members step members name reading hmembers part hp child hj
  | .array items, part, hm, node, h => by
    rcases List.mem_cons.mp hm with rfl | hm
    · cases h
    · exact Json.lowered_items step items part hm node h
  | .null, part, hm, node, h => by
    cases List.mem_singleton.mp hm
    cases h
  | .bool _, part, hm, node, h => by
    cases List.mem_singleton.mp hm
    cases h
  | .number _, part, hm, node, h => by
    cases List.mem_singleton.mp hm
    cases h
  | .string _, part, hm, node, h => by
    cases List.mem_singleton.mp hm
    cases h

theorem Json.lowered_members
    (step : ∀ object readings node, NodeObject.node object readings = .ok node →
      (∀ child ∈ node.children, motive child) → motive node) :
    ∀ members : List (String × Json), ∀ name reading, (name, reading) ∈ Json.readMembers members →
      ∀ part ∈ reading.parts, ∀ node, part.tree = .ok node → motive node
  | [], _, _, hm, _, _, _, _ => nomatch hm
  | (first, value) :: rest, name, reading, hm, part, hp, node, h => by
    rcases List.mem_cons.mp hm with eq | hm
    · cases eq
      exact Json.lowered_induction step value part hp node h
    · exact Json.lowered_members step rest name reading hm part hp node h

theorem Json.lowered_items
    (step : ∀ object readings node, NodeObject.node object readings = .ok node →
      (∀ child ∈ node.children, motive child) → motive node) :
    ∀ items : List Json, ∀ part ∈ Json.readItems items, ∀ node, part.tree = .ok node → motive node
  | [], _, hm, _, _ => nomatch hm
  | item :: rest, part, hm, node, h => by
    rcases List.mem_cons.mp hm with rfl | hm
    · exact Json.lowered_induction step item _ List.mem_cons_self node h
    · exact Json.lowered_items step rest part hm node h

end

end Lowering

namespace Node

variable {ι : Type}

/-- The fields of a node are the ones that its type lists, if it lists any. -/
def Regular (node : Node ι) : Prop :=
  ∀ fields, node.kind.fields? = some fields → node.signature = fields

theorem listed_eq_fields {node : Node ι} (hr : node.Regular) : node.listed = node.fields := by
  unfold listed
  split
  next fields hk =>
    have hd := Kind.fields?_nodup hk
    rw [← hr fields hk, signature, List.map_map] at hd
    have hf : ∀ field ∈ node.fields, node.field? field.name field.slot.arity = some field := by
      intro field hm
      cases same : node.field? field.name field.slot.arity with
      | none =>
        have ha := List.find?_eq_none.mp same field hm
        simp at ha
      | some other =>
        have names : other.name = field.name ∧ other.slot.arity = field.slot.arity := by
          simpa using List.find?_some same
        rw [eq_of_nodup_map hd (List.mem_of_find?_eq_some same) hm names.1]
    rw [← hr fields hk, signature, List.filterMap_map]
    exact (List.filterMap_congr hf).trans List.filterMap_some
  next => rfl

theorem map_child_edges {node : Node ι} (hr : node.Regular) :
    node.edges.map Edge.child = node.children := by
  rw [edges, listed_eq_fields hr, children_eq_flatMap, List.map_flatMap]
  refine List.flatMap_congr fun field _ => ?_
  rw [List.map_map, ← Slot.map_snd_entries]
  rfl

theorem regular_of_node {object : NodeObject} {readings : List (String × Reading)}
    {node : Node Unit} (h : object.node readings = .ok node) : node.Regular := by
  intro fields hl
  obtain ⟨hmade, -, -⟩ := NodeObject.node_eq_ok h
  rw [NodeObject.signature_eq h, (object.fits_form node.kind hmade).2, hl]
  rfl

end Node

def Tree.Regular (tree : Tree) : Prop :=
  ∀ node ∈ tree.root.preorder, node.Regular

theorem Tree.regular_of_ofJson {value : Json} {tree : Tree} (h : Tree.ofJson value = .ok tree) :
    tree.Regular := by
  obtain ⟨content, hj, rfl⟩ := map_eq_ok h
  have below : ∀ node ∈ content.preorder, node.Regular := by
    refine Json.lowered_induction (motive := fun content => ∀ node ∈ content.preorder, node.Regular)
      (fun object readings node hmade ih below hm => ?_) value _ List.mem_cons_self content hj
    rw [Node.preorder_eq] at hm
    rcases List.mem_cons.mp hm with rfl | hm
    · exact Node.regular_of_node hmade
    · obtain ⟨child, hc, hm⟩ := List.mem_flatMap.mp hm
      exact ih child hc below hm
  intro node hm fields hl
  have same : (Tree.mk content).root.rebuild (fun _ => ()) id = content.rebuild (fun _ => ()) id :=
    Node.rebuild_number id content 0
  have hcontent : node.rebuild (fun _ => ()) id ∈ (content.rebuild (fun _ => ()) id).preorder := by
    rw [← same, Node.preorder_rebuild]
    exact List.mem_map_of_mem hm
  rw [Node.preorder_rebuild] at hcontent
  obtain ⟨original, hm, eq⟩ := List.mem_map.mp hcontent
  have kinds := congrArg Node.kind eq
  have signatures := congrArg Node.signature eq
  rw [Node.kind_rebuild, Node.kind_rebuild] at kinds
  rw [Node.signature_rebuild, Node.signature_rebuild] at signatures
  rw [← signatures]
  exact below original hm fields (kinds ▸ hl)

end SyntaxMarkup
