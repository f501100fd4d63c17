import SyntaxMarkup.Proofs.Tree.Checks

namespace SyntaxMarkup

namespace NodeObject

variable {object : NodeObject} {name : String} {rule : Rule}

theorem lookup_of_mem {members : Json.Members} (ordered : members.Ordered) {name : String}
    {value : Json} (hm : (name, value) ∈ members) : members.lookup name = some value := by
  induction members with
  | nil => cases hm
  | cons member rest ih =>
    obtain ⟨least, ordered⟩ := List.pairwise_cons.mp ordered
    rcases List.mem_cons.mp hm with rfl | hm
    · exact List.lookup_cons_self
    · have before := least name (List.mem_map_of_mem hm)
      have other : name ≠ member.1 := fun same => String.lt_irrefl _ (same ▸ before)
      rw [List.lookup_cons, beq_false_of_ne other]
      exact ih ordered hm

theorem mem_unknownChildren (ordered : object.members.Ordered) {arity : Arity} :
    (name, arity) ∈ object.unknownChildren ↔ name ∉ "type" :: positionFields ∧
      ∃ value, object.members.lookup name = some value ∧ arity? value = some arity := by
  rw [unknownChildren, List.mem_filterMap]
  constructor
  · rintro ⟨⟨key, value⟩, hm, hmade⟩
    change (if key = "type" ∨ key ∈ positionFields then none
      else (arity? value).map (key, ·)) = some (name, arity) at hmade
    split at hmade
    next => cases hmade
    next ha =>
      obtain ⟨found, hk, eq⟩ := Option.map_eq_some_iff.mp hmade
      cases eq
      exact ⟨fun hm => ha (List.mem_cons.mp hm), value, lookup_of_mem ordered hm, hk⟩
  · rintro ⟨ha, value, found, hk⟩
    obtain ⟨before, rest, eq, -⟩ := List.lookup_eq_some_iff.mp found
    refine ⟨(name, value), by simp [eq], ?_⟩
    change (if name = "type" ∨ name ∈ positionFields then none
      else (arity? value).map (name, ·)) = some (name, arity)
    rw [if_neg fun hm => ha (List.mem_cons.mpr hm), hk, Option.map_some]

theorem arity?_array {items : List Json} {arity : Arity} :
    arity? (.array items) = some arity ↔ arity = .sparse ∧
      (∀ item ∈ items, item = .null ∨ ∃ inner, item.Is inner) ∧
      ∃ item ∈ items, ∃ inner, item.Is inner := by
  have both : (items.any Json.isNode && items.all fun item => item.isNull || item.isNode) = true ↔
      (∀ item ∈ items, item = .null ∨ ∃ inner, item.Is inner) ∧
        ∃ item ∈ items, ∃ inner, item.Is inner := by
    simp [Json.isNull_iff, Json.isNode_iff, and_comm]
  rw [← both]
  change (if _ = true then some Arity.sparse else none) = _ ↔ _
  split
  next all => simp [all, eq_comm]
  next some => simp [some]

theorem arity?_eq_some_iff {value : Json} {arity : Arity} :
    arity? value = some arity ↔ (arity = .one ∧ ∃ inner, value.Is inner) ∨
      (arity = .sparse ∧ ∃ items, value = .array items ∧
        (∀ item ∈ items, item = .null ∨ ∃ inner, item.Is inner) ∧
        ∃ item ∈ items, ∃ inner, item.Is inner) := by
  cases value with
  | array items =>
    rw [arity?_array]
    constructor
    · rintro ⟨rfl, all, any⟩
      exact .inr ⟨rfl, items, rfl, all, any⟩
    · rintro (⟨-, inner, is⟩ | ⟨rfl, _, ⟨⟩, all, any⟩)
      · cases is.1
      · exact ⟨rfl, all, any⟩
  | object members =>
    rw [← Json.isNode_iff]
    unfold arity?
    by_cases hnode : (Json.object members).isNode
    · simp [hnode, eq_comm]
    · simp [hnode]
  | null | bool | number | string =>
    refine iff_of_false (fun hmade => nomatch hmade) ?_
    rintro (⟨-, inner, is⟩ | ⟨-, items, eq, -⟩)
    · cases is.1
    · cases eq

theorem mem_children_form (ordered : object.members.Ordered) {arity : Arity} :
    (name, arity) ∈ object.form.children ↔
      ∃ rule, object.Demands name rule ∧ rule.arity? = some arity := by
  cases hknown : schema object.typeName with
  | some rules =>
    rw [children_form hknown, List.mem_filterMap]
    constructor
    · rintro ⟨⟨key, rule⟩, hm, hmade⟩
      obtain ⟨arity, harity, eq⟩ := Option.map_eq_some_iff.mp hmade
      cases eq
      exact ⟨rule, .listed hknown hm, harity⟩
    · rintro ⟨rule, hd, harity⟩
      cases hd with
      | listed hknown' hm =>
        cases hknown.symm.trans hknown'
        exact ⟨(name, rule), hm, Option.map_eq_some_iff.mpr ⟨arity, harity, rfl⟩⟩
      | child hu => cases hknown.symm.trans hu
      | children hu => cases hknown.symm.trans hu
  | none =>
    rw [form_of_unlisted hknown]
    change (name, arity) ∈ object.unknownChildren ↔ _
    rw [mem_unknownChildren ordered]
    constructor
    · rintro ⟨ha, value, hf, harity⟩
      rcases arity?_eq_some_iff.mp harity with
        ⟨rfl, inner, is⟩ | ⟨rfl, items, rfl, all, item, hm, inner, is⟩
      · exact ⟨.node, .child hknown ha hf is, rfl⟩
      · exact ⟨.nodesAndHoles, .children hknown ha hf all hm is, rfl⟩
    · rintro ⟨rule, hd, harity⟩
      cases hd with
      | listed hknown' => cases hknown.symm.trans hknown'
      | child _ ha hf is =>
        cases harity
        exact ⟨ha, _, hf, arity?_eq_some_iff.mpr (.inl ⟨rfl, _, is⟩)⟩
      | children _ ha hf all hm is =>
        cases harity
        exact ⟨ha, _, hf,
          arity?_eq_some_iff.mpr (.inr ⟨rfl, _, rfl, all, _, hm, _, is⟩)⟩

/-- The kind of an object is found from the fields without children. -/
theorem form_kind_ok {kind : Kind} (hmade : object.form.kind = .ok kind)
    (hd : object.Demands name rule) (scalar : rule.arity? = none) :
    object.Sound name rule := by
  cases hd with
  | listed hk hm => exact (covers_form hk).sound kind hmade _ hm scalar
  | child => cases scalar
  | children => cases scalar

theorem form_kind_error {e : TreeError} (hfail : object.form.kind = .error e) :
    ∃ name rule, object.Demands name rule ∧ object.Fails name rule e := by
  cases hk : schema object.typeName with
  | some rules =>
    obtain ⟨⟨name, rule⟩, hm, fails⟩ := (covers_form hk).fails e hfail
    exact ⟨name, rule, .listed hk hm, fails⟩
  | none =>
    rw [form_of_unlisted hk] at hfail
    cases hfail

theorem childFields_ok (ordered : object.members.Ordered) {fields : List (Field (Node Unit))}
    (hmade : object.childFields (Json.readMembers object.members) = .ok fields)
    (hd : object.Demands name rule) {arity : Arity} (harity : rule.arity? = some arity) :
    object.Sound name rule := by
  have hm := (mem_children_form ordered).mpr ⟨rule, hd, harity⟩
  obtain ⟨field, hr⟩ := exists_of_mapM_eq_ok hmade hm
  obtain ⟨slot, hr, -⟩ := map_eq_ok hr
  exact (slot_checks harity).sound slot hr

theorem childFields_error (ordered : object.members.Ordered) {e : TreeError}
    (hfail : object.childFields (Json.readMembers object.members) = .error e) :
    ∃ name rule, object.Demands name rule ∧ object.Fails name rule e := by
  obtain ⟨⟨name, arity⟩, hm, hfail⟩ := mapM_eq_error hfail
  obtain ⟨rule, hd, harity⟩ := (mem_children_form ordered).mp hm
  exact ⟨name, rule, hd, (slot_checks harity).fails e (map_eq_error hfail)⟩

/-- Lowering an object succeeds only if each of its fields is sound. -/
theorem sound_of_node (ordered : object.members.Ordered) {node : Node Unit}
    (hmade : object.node (Json.readMembers object.members) = .ok node)
    (hd : object.Demands name rule) : object.Sound name rule := by
  obtain ⟨kind, children, -⟩ := node_eq_ok hmade
  cases harity : rule.arity? with
  | none => exact form_kind_ok kind hd harity
  | some arity => exact childFields_ok ordered children hd harity

/-- Lowering an object fails only because of one of its fields. -/
theorem fails_of_node (ordered : object.members.Ordered) {e : TreeError}
    (hfail : object.node (Json.readMembers object.members) = .error e) :
    ∃ name rule, object.Demands name rule ∧ object.Fails name rule e := by
  unfold NodeObject.node at hfail
  split at hfail
  · rcases bind_eq_error hfail with hfail | ⟨fields, -, hfail⟩
    · exact childFields_error ordered hfail
    · rcases bind_eq_error hfail with hfail | ⟨kind, -, hfail⟩
      · exact form_kind_error hfail
      · cases hfail
  · rcases bind_eq_error hfail with hfail | ⟨kind, -, hfail⟩
    · exact form_kind_error hfail
    · rcases bind_eq_error hfail with hfail | ⟨fields, -, hfail⟩
      · exact childFields_error ordered hfail
      · cases hfail

end NodeObject

namespace Json

variable {value part : Json} {object : NodeObject}

theorem exists_mem_of_hasPart (has : object.HasPart part) :
    ∃ name inner, (name, inner) ∈ object.members ∧
      (part = inner ∨ ∃ items, inner = .array items ∧ part ∈ items) := by
  obtain ⟨name, rule, inner, -, hf, hp⟩ := has
  obtain ⟨hf, -⟩ := NodeObject.field?_eq_some_iff.mp hf
  obtain ⟨before, rest, eq, -⟩ := List.lookup_eq_some_iff.mp hf
  refine ⟨name, inner, by simp [eq], ?_⟩
  cases rule with
  | node | nodeOrNone => exact .inl hp
  | nodes | nodesAndHoles =>
    obtain ⟨items, rfl, hm, -⟩ := hp
    exact .inr ⟨items, rfl, hm⟩
  | _ => exact False.elim hp

theorem sizeOf_part (is : value.Is object) (has : object.HasPart part) :
    sizeOf part < sizeOf value := by
  obtain ⟨rfl, -⟩ := is
  obtain ⟨name, inner, hm, hp⟩ := exists_mem_of_hasPart has
  have hmembers := List.sizeOf_lt_of_mem hm
  rw [Prod.mk.sizeOf_spec] at hmembers
  rw [Json.object.sizeOf_spec]
  rcases hp with rfl | ⟨items, rfl, hi⟩
  · omega
  · have hitems := List.sizeOf_lt_of_mem hi
    rw [Json.array.sizeOf_spec] at hmembers
    omega

theorem Ordered.inner (ordered : value.Ordered) (is : value.Is object)
    (has : object.HasPart part) : part.Ordered := by
  obtain ⟨rfl, -⟩ := is
  obtain ⟨name, inner, hm, hp⟩ := exists_mem_of_hasPart has
  have inside := valuesOrdered_iff.mp ordered.2 _ hm
  rcases hp with rfl | ⟨items, rfl, hi⟩
  · exact inside
  · exact itemsOrdered_iff.mp inside part hi

theorem Ordered.members (ordered : value.Ordered) (is : value.Is object) :
    object.members.Ordered := by
  obtain ⟨rfl, -⟩ := is
  exact ordered.1

/-- What holds of a value once it holds of the values in its fields with children holds of every
value. -/
theorem part_induction {motive : Json → Prop}
    (step : ∀ value, (∀ object part, value.Is object → object.HasPart part → motive part) →
      motive value) (value : Json) : motive value :=
  step value fun _ part is has =>
    have := sizeOf_part is has
    part_induction step part
termination_by sizeOf value

theorem conforms_of_tree (ordered : value.Ordered) {node : Node Unit}
    (hj : value.reading.tree = .ok node) : value.Conforms := by
  induction value using part_induction generalizing node with
  | step value ih =>
    by_cases hnode : ∃ object, value.Is object
    · obtain ⟨object, is⟩ := hnode
      rw [tree_reading is] at hj
      have hs {name : String} {rule : Rule} (hd : object.Demands name rule) :=
        NodeObject.sound_of_node (ordered.members is) hj hd
      refine .node is (fun name rule hd => (hs hd).1) fun part has => ?_
      obtain ⟨name, rule, inner, hd, hf, hp⟩ := has
      obtain ⟨child, hj⟩ := (hs hd).2 inner hf part hp
      have has : object.HasPart part := ⟨name, rule, inner, hd, hf, hp⟩
      exact ih object part is has (ordered.inner is has) hj
    · rw [tree_reading_of_not_node (not_exists.mp hnode)] at hj
      cases hj

theorem Conforms.exists_tree (hc : value.Conforms) (ordered : value.Ordered) :
    ∃ node, value.reading.tree = .ok node := by
  induction hc with
  | @node value object is hk _ ih =>
    cases hj : value.reading.tree with
    | ok node => exact ⟨node, rfl⟩
    | error e =>
      rw [tree_reading is] at hj
      obtain ⟨name, rule, hd, fault | ⟨inner, hf, part, _, hp, -, hfail⟩⟩ :=
        NodeObject.fails_of_node (ordered.members is) hj
      · exact absurd (hk name rule hd) fault.not_keeps
      · have has : object.HasPart part := ⟨name, rule, inner, hd, hf, hp⟩
        obtain ⟨node, hj⟩ := ih part has (ordered.inner is has)
        cases hfail.symm.trans hj

/-- What is wrong with a node is a fault in a field of a node that is reached from it. -/
theorem exists_fault (ordered : value.Ordered) (is : value.Is object) {e : TreeError}
    (hfail : value.reading.tree = .error e) :
    ∃ inner name rule, value.Reaches inner ∧ inner.Demands name rule ∧
      inner.Fault name rule e := by
  induction value using part_induction generalizing object with
  | step value ih =>
    rw [tree_reading is] at hfail
    obtain ⟨name, rule, hd, fault | ⟨inner, hf, part, child, hp, hnode, hfail⟩⟩ :=
      NodeObject.fails_of_node (ordered.members is) hfail
    · exact ⟨object, name, rule, .here is, hd, fault⟩
    · have has : object.HasPart part := ⟨name, rule, inner, hd, hf, hp⟩
      obtain ⟨target, name, rule, reaches, hd, fault⟩ :=
        ih object part is has (ordered.inner is has) hnode hfail
      exact ⟨target, name, rule, .deeper is has reaches, hd, fault⟩

end Json

namespace Tree

theorem ofJson_of_reading {value : Json} {node : Node Unit}
    (hj : value.reading.tree = .ok node) : ofJson value = .ok ⟨node⟩ := by
  rw [ofJson, hj]
  rfl

theorem ofJson_eq_ok_iff {value : Json} :
    (∃ tree, ofJson value = .ok tree) ↔ ∃ node, value.reading.tree = .ok node := by
  constructor
  · rintro ⟨tree, hmade⟩
    obtain ⟨node, hj, -⟩ := map_eq_ok hmade
    exact ⟨node, hj⟩
  · rintro ⟨node, hj⟩
    exact ⟨⟨node⟩, ofJson_of_reading hj⟩

theorem ofJson_eq_error_iff {value : Json} {e : TreeError} :
    ofJson value = .error e ↔ value.reading.tree = .error e := by
  constructor
  · exact map_eq_error
  · intro hfail
    rw [ofJson, hfail]
    rfl

/-- Exactly the values that conform to the schema are lowered. A value that is no object with a
string as its type is not a node, and any other error names a node that is reached along fields with
children, by its type, and a field of it that is absent where it has to be there, or that holds what
its rule does not allow. -/
theorem ofJson_respects_schema {value : Json} (ordered : value.Ordered) :
    ((∃ tree, ofJson value = .ok tree) ↔ value.Conforms) ∧
      (ofJson value = .error .notANode ↔ ∀ object, ¬value.Is object) ∧
      (∀ typeName field, ofJson value = .error (.missingField typeName field) →
        ∃ object rule, value.Reaches object ∧ object.typeName = typeName ∧
          object.Demands field rule ∧ rule.Absent object field) ∧
      ∀ typeName field demand, ofJson value = .error (.invalidField typeName field demand) →
        ∃ object rule found, value.Reaches object ∧ object.typeName = typeName ∧
          object.Demands field rule ∧ object.field? field = some found ∧ ¬rule.Shape found := by
  have blamed {e : TreeError} (hfail : value.reading.tree = .error e) :
      (e = .notANode ∧ ∀ object, ¬value.Is object) ∨
        ∃ inner name rule, value.Reaches inner ∧ inner.Demands name rule ∧
          inner.Fault name rule e := by
    by_cases hnode : ∃ object, value.Is object
    · obtain ⟨object, is⟩ := hnode
      exact .inr (Json.exists_fault ordered is hfail)
    · rw [Json.tree_reading_of_not_node (not_exists.mp hnode)] at hfail
      cases hfail
      exact .inl ⟨rfl, not_exists.mp hnode⟩
  refine ⟨?_, ?_, ?_, ?_⟩
  · rw [ofJson_eq_ok_iff]
    exact ⟨fun ⟨_, hj⟩ => Json.conforms_of_tree ordered hj,
      fun hc => hc.exists_tree ordered⟩
  · rw [ofJson_eq_error_iff]
    refine ⟨fun hfail => ?_, Json.tree_reading_of_not_node⟩
    rcases blamed hfail with ⟨-, hn⟩ | ⟨inner, name, rule, -, -, fault⟩
    · exact hn
    · cases fault
  · intro typeName field hfail
    rcases blamed (ofJson_eq_error_iff.mp hfail) with
      ⟨other, -⟩ | ⟨inner, name, rule, reaches, hd, fault⟩
    · cases other
    · generalize same : TreeError.missingField typeName field = e at fault
      cases fault with
      | missing ha =>
        cases same
        exact ⟨inner, rule, reaches, rfl, hd, ha⟩
      | invalid => cases same
  · intro typeName field demand hfail
    rcases blamed (ofJson_eq_error_iff.mp hfail) with
      ⟨other, -⟩ | ⟨inner, name, rule, reaches, hd, fault⟩
    · cases other
    · generalize same : TreeError.invalidField typeName field demand = e at fault
      cases fault with
      | missing => cases same
      | invalid found misshapen =>
        cases same
        exact ⟨inner, rule, _, reaches, rfl, hd, found, misshapen⟩

/-- A program with an identifier that has no name. -/
def namelessSample : Json :=
  .ofNode "Program" [("body", .array [.ofNode "Identifier" [("name", .null)]])]

theorem ofJson_respects_schema_namelessSample :
    namelessSample.Ordered ∧ ¬namelessSample.Conforms ∧
      ∃ object rule, namelessSample.Reaches object ∧ object.typeName = "Identifier" ∧
        object.Demands "name" rule ∧ rule.Absent object "name" := by
  have ordered : namelessSample.Ordered :=
    Json.ordered_ofMembers ⟨trivial, ⟨Json.ordered_ofMembers ⟨trivial, trivial, trivial⟩, trivial⟩,
      trivial⟩
  have hfail : ofJson namelessSample = .error (.missingField "Identifier" "name") := by rfl
  obtain ⟨accepted, -, missing, -⟩ := ofJson_respects_schema ordered
  refine ⟨ordered, fun hc => ?_, missing _ _ hfail⟩
  obtain ⟨tree, hj⟩ := accepted.mpr hc
  cases hfail.symm.trans hj

end Tree

end SyntaxMarkup
