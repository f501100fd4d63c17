import SyntaxMarkup.Proofs.Tree.Schema

namespace SyntaxMarkup

theorem mapM_eq_error {α β ε : Type} {f : α → Except ε β} {items : List α} {e : ε}
    (h : items.mapM f = .error e) : ∃ item ∈ items, f item = .error e := by
  induction items with
  | nil => cases h
  | cons item rest ih =>
    rw [List.mapM_cons] at h
    cases first : f item with
    | error =>
      rw [first] at h
      cases h
      exact ⟨item, List.mem_cons_self, first⟩
    | ok result =>
      rw [first] at h
      cases later : rest.mapM f with
      | error =>
        simp only [later] at h
        cases h
        obtain ⟨other, hm, hfail⟩ := ih later
        exact ⟨other, List.mem_cons_of_mem _ hm, hfail⟩
      | ok =>
        simp only [later] at h
        cases h

theorem exists_of_mapM_eq_ok {α β ε : Type} {f : α → Except ε β} {items : List α}
    {results : List β} (h : items.mapM f = .ok results) {item : α} (hm : item ∈ items) :
    ∃ result, f item = .ok result := by
  obtain ⟨result, -, hmade⟩ := exists_of_forall₂ (mapM_eq_ok h).flip hm
  exact ⟨result, hmade⟩

theorem map_eq_error {α β ε : Type} {x : Except ε α} {f : α → β} {e : ε}
    (h : f <$> x = .error e) : x = .error e := by
  cases x with
  | error => exact congrArg Except.error (Except.error.inj h)
  | ok => cases h

theorem bind_eq_error {α β ε : Type} {x : Except ε α} {f : α → Except ε β} {e : ε}
    (h : x >>= f = .error e) : x = .error e ∨ ∃ a, x = .ok a ∧ f a = .error e := by
  cases x with
  | error => exact .inl (congrArg Except.error (Except.error.inj h))
  | ok a => exact .inr ⟨a, rfl, h⟩

namespace Json

variable {value : Json} {object : NodeObject}

theorem asNode?_eq_some_iff : value.asNode? = some object ↔ value.Is object := by
  constructor
  · intro h
    unfold asNode? at h
    split at h
    next =>
      split at h
      next hf =>
        cases h
        exact ⟨rfl, hf⟩
      next => cases h
    next => cases h
  · rintro ⟨rfl, hf⟩
    simp only [asNode?, hf]

theorem isNode_iff : value.isNode ↔ ∃ object, value.Is object := by
  rw [isNode, Option.isSome_iff_exists]
  simp only [asNode?_eq_some_iff]

theorem isNull_iff : value.isNull ↔ value = .null := by
  cases value <;> simp [isNull]

theorem bind_asString?_eq_some_iff {found : Option Json} {text : String} :
    found.bind asString? = some text ↔ found = some (.string text) := by
  cases found with
  | none => simp
  | some value => cases value <;> simp [asString?]

theorem member?_eq_some {key : String} {part : Json} (h : value.member? key = some part) :
    ∃ members, value = .object members ∧ members.lookup key = some part := by
  obtain ⟨members, hobject, hf⟩ := Option.bind_eq_some_iff.mp h
  cases value with
  | object =>
    cases hobject
    exact ⟨_, rfl, hf⟩
  | null | bool | number | string | array => cases hobject

theorem value_reading (value : Json) : value.reading.value = value := by
  cases value <;> rfl

theorem items_reading (value : Json) : value.reading.items = value.asArray?.map readItems := by
  cases value <;> rfl

theorem tree_reading (is : value.Is object) :
    value.reading.tree = object.node (readMembers object.members) := by
  have hd := asNode?_eq_some_iff.mpr is
  obtain ⟨rfl, -⟩ := is
  simp only [reading, hd]

theorem tree_reading_of_not_node (h : ∀ object, ¬value.Is object) :
    value.reading.tree = .error .notANode := by
  cases value with
  | object members =>
    have hd : (Json.object members).asNode? = none := by
      cases same : (Json.object members).asNode? with
      | none => rfl
      | some object => exact absurd (asNode?_eq_some_iff.mp same) (h object)
    simp only [reading, hd]
  | null | bool | number | string | array => rfl

end Json

namespace NodeObject

variable {object : NodeObject} {name : String} {rule : Rule}

theorem field?_eq_some_iff {value : Json} :
    object.field? name = some value ↔ object.members.lookup name = some value ∧ value ≠ .null := by
  rw [field?, Option.filter_eq_some_iff]
  cases value <;> simp [Json.isNull]

theorem reading?_readMembers (object : NodeObject) (name : String) :
    reading? (Json.readMembers object.members) name = (object.field? name).map Json.reading := by
  rw [reading?, Json.lookup_readMembers, field?]
  cases object.members.lookup name with
  | none => rfl
  | some value => simp [Option.filter, Json.value_reading]

/-- What is wrong with a field that does not keep to its rule. -/
inductive Fault (object : NodeObject) (name : String) (rule : Rule) : TreeError → Prop
  | missing (absent : rule.Absent object name) : object.Fault name rule (object.missing name)
  | invalid {value : Json} {demand : Demand} (found : object.field? name = some value)
      (misshapen : ¬rule.Shape value) : object.Fault name rule (object.invalid name demand)

theorem Fault.not_keeps {e : TreeError} (h : object.Fault name rule e) :
    ¬object.Keeps name rule := by
  rintro ⟨hpresent, shape⟩
  cases h with
  | missing ha => exact hpresent ha
  | invalid hf misshapen => exact misshapen (shape _ hf)

/-- A field keeps to its rule and the nodes in it are lowered. -/
def Sound (object : NodeObject) (name : String) (rule : Rule) : Prop :=
  object.Keeps name rule ∧ ∀ value, object.field? name = some value →
    ∀ part, rule.Part value part → ∃ node, part.reading.tree = .ok node

/-- An error comes from a field or from a node in it. -/
def Fails (object : NodeObject) (name : String) (rule : Rule) (e : TreeError) : Prop :=
  object.Fault name rule e ∨ ∃ value, object.field? name = some value ∧
    ∃ part inner, rule.Part value part ∧ part.Is inner ∧ part.reading.tree = .error e

/-- Reading a field succeeds only if the field is sound, and reports only what fails in it. -/
structure Checks {α : Type} (object : NodeObject) (name : String) (rule : Rule)
    (x : Except TreeError α) : Prop where
  sound : ∀ a, x = .ok a → object.Sound name rule
  fails : ∀ e, x = .error e → object.Fails name rule e

section Fields

variable {α β : Type} {x : Except TreeError α}

theorem Checks.map (h : object.Checks name rule x) (f : α → β) :
    object.Checks name rule (f <$> x) where
  sound _ hmade :=
    have ⟨a, hr, _⟩ := map_eq_ok hmade
    h.sound a hr
  fails e hfail := h.fails e (map_eq_error hfail)

theorem checks_absent (ha : rule.Absent object name) :
    object.Checks name rule (.error (object.missing name) : Except TreeError α) where
  sound _ hmade := nomatch hmade
  fails _ hfail := by
    cases hfail
    exact .inl (.missing ha)

theorem checks_present {value : Json} (hf : object.field? name = some value)
    (hpresent : ¬rule.Absent object name)
    (hs : ∀ a, x = .ok a → rule.Shape value ∧
      ∀ part, rule.Part value part → ∃ node, part.reading.tree = .ok node)
    (fails : ∀ e, x = .error e → (¬rule.Shape value ∧ ∃ demand, e = object.invalid name demand) ∨
      ∃ part inner, rule.Part value part ∧ part.Is inner ∧ part.reading.tree = .error e) :
    object.Checks name rule x where
  sound a hmade := by
    refine ⟨⟨hpresent, fun other same => ?_⟩, fun other same => ?_⟩
    all_goals cases hf.symm.trans same
    · exact (hs a hmade).1
    · exact (hs a hmade).2
  fails e hfail := by
    rcases fails e hfail with ⟨misshapen, demand, rfl⟩ | below
    · exact .inl (.invalid hf misshapen)
    · exact .inr ⟨value, hf, below⟩

end Fields

theorem child_reading_ok {demand : Demand} {value : Json} {node : Node Unit}
    (h : object.child name demand value.reading.toDescribed = .ok node) :
    (∃ inner, value.Is inner) ∧ value.reading.tree = .ok node := by
  rw [child, Json.value_reading] at h
  split at h
  next hnode => exact ⟨Json.isNode_iff.mp hnode, h⟩
  next => cases h

theorem child_reading_error {demand : Demand} {value : Json} {e : TreeError}
    (h : object.child name demand value.reading.toDescribed = .error e) :
    ((¬∃ inner, value.Is inner) ∧ e = object.invalid name demand) ∨
      ∃ inner, value.Is inner ∧ value.reading.tree = .error e := by
  rw [child, Json.value_reading] at h
  split at h
  next hnode =>
    obtain ⟨inner, is⟩ := Json.isNode_iff.mp hnode
    exact .inr ⟨inner, is, h⟩
  next hn =>
    cases h
    exact .inl ⟨fun hnode => hn (Json.isNode_iff.mpr hnode), rfl⟩

theorem sparseChild_reading_ok {item : Json} {child : Option (Node Unit)}
    (h : object.sparseChild name item.reading.toDescribed = .ok child) :
    (item = .null ∨ ∃ inner, item.Is inner) ∧
      (item ≠ .null → ∃ node, item.reading.tree = .ok node) := by
  rw [sparseChild, Json.value_reading] at h
  split at h
  next hn =>
    have null := Json.isNull_iff.mp hn
    exact ⟨.inl null, fun other => absurd null other⟩
  next =>
    obtain ⟨node, hmade, -⟩ := map_eq_ok h
    obtain ⟨is, tree⟩ := child_reading_ok hmade
    exact ⟨.inr is, fun _ => ⟨node, tree⟩⟩

theorem sparseChild_reading_error {item : Json} {e : TreeError}
    (h : object.sparseChild name item.reading.toDescribed = .error e) :
    (¬(item = .null ∨ ∃ inner, item.Is inner) ∧ e = object.invalid name .nodes) ∨
      ∃ inner, item.Is inner ∧ item.reading.tree = .error e := by
  rw [sparseChild, Json.value_reading] at h
  split at h
  next => cases h
  next hn =>
    refine (child_reading_error (map_eq_error h)).imp_left fun wrong => ⟨?_, wrong.2⟩
    rintro (null | is)
    · exact hn (Json.isNull_iff.mpr null)
    · exact wrong.1 is

theorem items_reading_ok {value : Json} {items : List Described}
    (h : object.items name value.reading = .ok items) :
    ∃ inside, value = .array inside ∧ items = Json.readItems inside := by
  have hl := items_eq_ok h
  rw [Json.items_reading] at hl
  obtain ⟨inside, ha, rfl⟩ := Option.map_eq_some_iff.mp hl
  cases value with
  | array =>
    cases ha
    exact ⟨_, rfl, rfl⟩
  | null | bool | number | string | object => cases ha

theorem items_reading_error {value : Json} {e : TreeError}
    (h : object.items name value.reading = .error e) :
    (∀ inside, value ≠ .array inside) ∧ e = object.invalid name .list := by
  unfold NodeObject.items at h
  split at h
  next => cases h
  next hl =>
    cases h
    refine ⟨?_, rfl⟩
    rintro inside rfl
    cases hl

/-- A list in a field is read item by item. -/
theorem items_checks {α : Type} {value : Json} {f : Described → Except TreeError α}
    {fits : Json → Prop} (hf : object.field? name = some value)
    (hpresent : ¬rule.Absent object name)
    (shape : rule.Shape value ↔ ∃ items, value = .array items ∧ ∀ item ∈ items, fits item)
    (parts : ∀ part, rule.Part value part ↔
      ∃ items, value = .array items ∧ part ∈ items ∧ part ≠ .null)
    (hs : ∀ (item : Json) a, f item.reading.toDescribed = .ok a →
      fits item ∧ (item ≠ .null → ∃ node, item.reading.tree = .ok node))
    (fails : ∀ (item : Json) e, f item.reading.toDescribed = .error e →
      (¬fits item ∧ ∃ demand, e = object.invalid name demand) ∨
        ∃ inner, item.Is inner ∧ item.reading.tree = .error e) :
    object.Checks name rule (object.items name value.reading >>= (·.mapM f)) := by
  refine checks_present hf hpresent (fun results hmade => ?_) fun e hfail => ?_
  · obtain ⟨items, hl, hmade⟩ := bind_eq_ok hmade
    obtain ⟨inside, rfl, rfl⟩ := items_reading_ok hl
    rw [Json.readItems_eq_map] at hmade
    have each (item : Json) (hm : item ∈ inside) :
        fits item ∧ (item ≠ .null → ∃ node, item.reading.tree = .ok node) := by
      obtain ⟨a, hr⟩ := exists_of_mapM_eq_ok hmade (List.mem_map_of_mem hm)
      exact hs item a hr
    refine ⟨shape.mpr ⟨inside, rfl, fun item hm => (each item hm).1⟩, fun part hp => ?_⟩
    obtain ⟨_, ⟨⟩, hm, hn⟩ := (parts part).mp hp
    exact (each part hm).2 hn
  · rcases bind_eq_error hfail with hfail | ⟨items, hl, hfail⟩
    · obtain ⟨ha, rfl⟩ := items_reading_error hfail
      refine .inl ⟨fun fitting => ?_, _, rfl⟩
      obtain ⟨inside, rfl, -⟩ := shape.mp fitting
      exact ha inside rfl
    · obtain ⟨inside, rfl, rfl⟩ := items_reading_ok hl
      rw [Json.readItems_eq_map] at hfail
      obtain ⟨_, hp, hfail⟩ := mapM_eq_error hfail
      obtain ⟨item, hm, rfl⟩ := List.mem_map.mp hp
      refine (fails item e hfail).imp (fun wrong => ⟨fun fitting => ?_, wrong.2⟩) ?_
      · obtain ⟨_, ⟨⟩, all⟩ := shape.mp fitting
        exact wrong.1 (all item hm)
      · rintro ⟨inner, is, tree⟩
        refine ⟨item, inner, (parts item).mpr ⟨inside, rfl, hm, ?_⟩, is, tree⟩
        rintro rfl
        cases is.1

theorem slot_checks {arity : Arity} (h : rule.arity? = some arity) :
    object.Checks name rule (object.slot (Json.readMembers object.members) name arity) := by
  have hr := object.reading?_readMembers name
  cases hf : object.field? name with
  | none =>
    rw [hf] at hr
    cases rule with
    | node | nodes | nodesAndHoles =>
      cases h
      simp only [slot, hr, Option.map_none]
      exact checks_absent hf
    | nodeOrNone =>
      cases h
      simp only [slot, hr, Option.map_none]
      refine ⟨fun _ _ => ⟨⟨id, ?_⟩, ?_⟩, fun _ hfail => nomatch hfail⟩
      all_goals
        intro value other
        cases hf.symm.trans other
    | _ => cases h
  | some value =>
    rw [hf] at hr
    cases rule with
    | node | nodeOrNone =>
      cases h
      simp only [slot, hr, Option.map_some]
      refine Checks.map (checks_present hf ?_ (fun node hmade => ?_) fun e hfail => ?_) _
      · simp [Rule.Absent, hf]
      · obtain ⟨is, tree⟩ := child_reading_ok hmade
        refine ⟨is, ?_⟩
        rintro _ rfl
        exact ⟨node, tree⟩
      · refine (child_reading_error hfail).imp (fun wrong => ⟨wrong.1, _, wrong.2⟩) ?_
        rintro ⟨inner, is, tree⟩
        exact ⟨value, inner, rfl, is, tree⟩
    | nodes =>
      cases h
      have list : object.Checks name .nodes
          (object.items name value.reading >>= (·.mapM (object.child name .nodes))) := by
        refine items_checks hf (by simp [Rule.Absent, hf]) Iff.rfl (fun _ => Iff.rfl)
          (fun item node hmade => ?_) fun item e hfail => ?_
        · obtain ⟨is, tree⟩ := child_reading_ok hmade
          exact ⟨is, fun _ => ⟨node, tree⟩⟩
        · exact (child_reading_error hfail).imp_left fun wrong => ⟨wrong.1, _, wrong.2⟩
      simpa [slot, hr] using list.map Slot.many
    | nodesAndHoles =>
      cases h
      have list : object.Checks name .nodesAndHoles
          (object.items name value.reading >>= (·.mapM (object.sparseChild name))) := by
        refine items_checks hf (by simp [Rule.Absent, hf]) Iff.rfl (fun _ => Iff.rfl)
          (fun item child hmade => sparseChild_reading_ok hmade) fun item e hfail => ?_
        exact (sparseChild_reading_error hfail).imp_left fun wrong => ⟨wrong.1, _, wrong.2⟩
      simpa [slot, hr] using list.map Slot.sparse
    | _ => cases h

section Scalars

variable {α : Type} {x : Except TreeError α}

/-- A field without children is read if it keeps to its rule, and blamed if it does not. -/
theorem checks_of_keeps (scalar : rule.arity? = none)
    (hk : ∀ a, x = .ok a → object.Keeps name rule)
    (fault : ∀ e, x = .error e → object.Fault name rule e) : object.Checks name rule x where
  sound a hmade := by
    refine ⟨hk a hmade, fun value hf part hp => ?_⟩
    cases rule <;> first | exact False.elim hp | cases scalar
  fails e hfail := .inl (fault e hfail)

theorem require_eq_ok {value : Json} (h : object.require name = .ok value) :
    object.field? name = some value := by
  unfold require at h
  split at h
  next hf =>
    cases h
    exact hf
  next => cases h

theorem require_eq_error {e : TreeError} (h : object.require name = .error e) :
    object.field? name = none ∧ e = object.missing name := by
  unfold require at h
  split at h
  next => cases h
  next ha =>
    cases h
    exact ⟨ha, rfl⟩

theorem text_eq_ok {text : String} (h : object.text name = .ok text) :
    object.field? name = some (.string text) := by
  obtain ⟨value, hr, h⟩ := bind_eq_ok h
  split at h
  next hk =>
    cases h
    rw [require_eq_ok hr]
    exact Json.bind_asString?_eq_some_iff.mp hk
  next => cases h

theorem text_eq_error {e : TreeError} (h : object.text name = .error e) :
    (object.field? name = none ∧ e = object.missing name) ∨
      ∃ value, object.field? name = some value ∧ (∀ text, value ≠ .string text) ∧
        e = object.invalid name .text := by
  rcases bind_eq_error h with h | ⟨value, hr, h⟩
  · exact .inl (require_eq_error h)
  · split at h
    next => cases h
    next other =>
      cases h
      refine .inr ⟨value, require_eq_ok hr, ?_, rfl⟩
      rintro text rfl
      cases other

theorem text_checks : object.Checks name .text (object.text name) := by
  refine checks_of_keeps rfl (fun text hmade => ⟨?_, fun value hf => ?_⟩) fun e hfail => ?_
  · simp [Rule.Absent, text_eq_ok hmade]
  · cases (text_eq_ok hmade).symm.trans hf
    exact ⟨text, rfl⟩
  · rcases text_eq_error hfail with ⟨ha, rfl⟩ | ⟨value, hf, other, rfl⟩
    · exact .missing ha
    · exact .invalid hf fun ⟨text, same⟩ => other text same

theorem mem_words {α : Type} [Vocabulary α] {text : String} :
    text ∈ words α ↔ ∃ a : α, Vocabulary.word a = text := by
  simp [words, Vocabulary.mem_all]

theorem word_eq_ok [Vocabulary α] {demand : Demand} {a : α}
    (h : object.word name demand = .ok a) :
    object.field? name = some (.string (Vocabulary.word a)) := by
  obtain ⟨text, hr, h⟩ := bind_eq_ok h
  split at h
  next hk =>
    cases h
    rw [Vocabulary.ofWord?_eq_some_iff.mp hk]
    exact text_eq_ok hr
  next => cases h

theorem word_eq_error [Vocabulary α] {demand : Demand} {e : TreeError}
    (h : (object.word name demand : Except TreeError α) = .error e) :
    (object.field? name = none ∧ e = object.missing name) ∨
      ∃ value, object.field? name = some value ∧ (∀ word ∈ words α, value ≠ .string word) ∧
        ∃ demand, e = object.invalid name demand := by
  rcases bind_eq_error h with h | ⟨text, hr, h⟩
  · refine (text_eq_error h).imp_right ?_
    rintro ⟨value, hf, other, rfl⟩
    exact ⟨value, hf, fun word _ => other word, _, rfl⟩
  · split at h
    next => cases h
    next hu =>
      cases h
      refine .inr ⟨_, text_eq_ok hr, fun word hm same => ?_, _, rfl⟩
      obtain ⟨a, rfl⟩ := mem_words.mp hm
      cases same
      rw [Vocabulary.ofWord?_eq_some_iff.mpr rfl] at hu
      cases hu

theorem word_checks [Vocabulary α] {demand : Demand} :
    object.Checks name (.word (words α)) (object.word name demand : Except TreeError α) := by
  refine checks_of_keeps rfl (fun a hmade => ⟨?_, fun value hf => ?_⟩) fun e hfail => ?_
  · simp [Rule.Absent, word_eq_ok hmade]
  · cases (word_eq_ok hmade).symm.trans hf
    exact ⟨_, mem_words.mpr ⟨a, rfl⟩, rfl⟩
  · rcases word_eq_error hfail with ⟨ha, rfl⟩ | ⟨value, hf, other, demand, rfl⟩
    · exact .missing ha
    · exact .invalid hf fun ⟨word, hm, same⟩ => other word hm same

theorem propertyKind_checks :
    object.Checks "kind" (.wordOrNone (words PropertyKind)) object.propertyKind := by
  unfold propertyKind
  split
  next value hf =>
    refine checks_of_keeps rfl (fun a hmade => ⟨id, fun value hf => ?_⟩) fun e hfail => ?_
    · cases (word_eq_ok hmade).symm.trans hf
      exact ⟨_, mem_words.mpr ⟨a, rfl⟩, rfl⟩
    · rcases word_eq_error hfail with ⟨ha, -⟩ | ⟨value, hf, other, demand, rfl⟩
      · cases hf.symm.trans ha
      · exact .invalid hf fun ⟨word, hm, same⟩ => other word hm same
  next ha =>
    refine checks_of_keeps rfl (fun a hmade => ⟨id, fun value hf => ?_⟩)
      fun _ hfail => nomatch hfail
    cases ha.symm.trans hf

theorem regex?_checks : object.Checks "regex" .regex object.regex? := by
  unfold regex?
  split
  next members hf =>
    split
    next pattern hr =>
      refine checks_of_keeps rfl (fun _ _ => ⟨id, fun value other => ?_⟩)
        fun _ hfail => nomatch hfail
      cases hf.symm.trans other
      rintro _ ⟨⟩
      exact ⟨pattern, Json.bind_asString?_eq_some_iff.mp hr⟩
    next hunread =>
      refine checks_of_keeps rfl (fun _ hmade => nomatch hmade) fun e hfail => ?_
      cases hfail
      refine .invalid hf fun shape => ?_
      obtain ⟨pattern, hk⟩ := shape members rfl
      simp [hk, Json.asString?] at hunread
  next other =>
    refine checks_of_keeps rfl (fun _ _ => ⟨id, fun value hf => ?_⟩)
      fun _ hfail => nomatch hfail
    rintro members rfl
    exact absurd hf (other members)

theorem text?_eq_some_iff {text : String} :
    object.text? name = some text ↔ object.members.lookup name = some (.string text) := by
  rw [text?, Json.bind_asString?_eq_some_iff, field?_eq_some_iff]
  exact and_iff_left Json.noConfusion

theorem raw_checks : object.Checks "raw" .raw object.raw := by
  unfold raw
  split
  next _ raw hk =>
    refine checks_of_keeps rfl (fun _ _ => ⟨fun ha => ?_, fun _ _ => trivial⟩)
      fun _ hfail => nomatch hfail
    exact ha.1 raw (text?_eq_some_iff.mp hk)
  next value hk hf =>
    refine checks_of_keeps rfl (fun _ _ => ⟨fun ha => ?_, fun _ _ => trivial⟩)
      fun _ hfail => nomatch hfail
    cases hf.symm.trans ha.2
  next hu ha =>
    refine checks_of_keeps rfl (fun _ hmade => nomatch hmade) fun e hfail => ?_
    cases hfail
    refine .missing ⟨fun text hf => ?_, ha⟩
    cases hu.symm.trans (text?_eq_some_iff.mpr hf)

theorem templateElement_checks : object.Checks "value" .template object.templateElement := by
  refine checks_of_keeps rfl (fun kind hmade => ?_) fun e hfail => ?_
  · obtain ⟨value, hr, hmade⟩ := bind_eq_ok hmade
    have hf := require_eq_ok hr
    split at hmade
    next raw hk =>
      refine ⟨?_, fun other same => ?_⟩
      · simp [Rule.Absent, hf]
      · cases hf.symm.trans same
        obtain ⟨members, rfl, inside⟩ :=
          Json.member?_eq_some (Json.bind_asString?_eq_some_iff.mp hk)
        exact ⟨members, raw, rfl, inside⟩
    next => cases hmade
  · rcases bind_eq_error hfail with hfail | ⟨value, hr, hfail⟩
    · obtain ⟨ha, rfl⟩ := require_eq_error hfail
      exact .missing ha
    · split at hfail
      next => cases hfail
      next hu =>
        cases hfail
        refine .invalid (require_eq_ok hr) ?_
        rintro ⟨members, raw, rfl, hk⟩
        simp [Json.member?, Json.asObject?, hk, Json.asString?] at hu

end Scalars

/-- A computation reads the fields without children. -/
structure Covers {α : Type} (object : NodeObject) (rules : List (String × Rule))
    (x : Except TreeError α) : Prop where
  sound : ∀ a, x = .ok a → ∀ entry ∈ rules, entry.2.arity? = none →
    object.Sound entry.1 entry.2
  fails : ∀ e, x = .error e → ∃ entry ∈ rules, object.Fails entry.1 entry.2 e

section Kinds

variable {α β : Type} {rules : List (String × Rule)}

theorem sound_free (object : NodeObject) (name : String) : object.Sound name .free :=
  ⟨⟨id, fun _ _ => trivial⟩, fun _ _ _ hp => False.elim hp⟩

theorem covers_of_ok {a : α}
    (others : ∀ entry ∈ rules, entry.2.arity? = none → entry.2 = .free) :
    object.Covers rules (.ok a : Except TreeError α) where
  sound _ _ entry hm scalar := by
    rw [others entry hm scalar]
    exact sound_free object entry.1
  fails _ hfail := nomatch hfail

theorem Checks.covers {x : Except TreeError α} {f : α → β} (h : object.Checks name rule x)
    (hm : (name, rule) ∈ rules)
    (others : ∀ entry ∈ rules, entry.2.arity? = none → entry.2 = .free ∨ entry = (name, rule)) :
    object.Covers rules (f <$> x) where
  sound b hmade entry hr scalar := by
    obtain ⟨a, hmade, -⟩ := map_eq_ok hmade
    rcases others entry hr scalar with hf | rfl
    · rw [hf]
      exact sound_free object entry.1
    · exact h.sound a hmade
  fails e hfail := ⟨_, hm, h.fails e (map_eq_error hfail)⟩

theorem literal_covers :
    object.Covers [("regex", .regex), ("raw", .raw), ("bigint", .free)] object.literal where
  sound kind hmade entry hm _ := by
    obtain ⟨regex, hk, hmade⟩ := bind_eq_ok hmade
    obtain ⟨raw, hr, -⟩ := bind_eq_ok hmade
    simp only [List.mem_cons, List.not_mem_nil, or_false] at hm
    rcases hm with rfl | rfl | rfl
    · exact regex?_checks.sound regex hk
    · exact raw_checks.sound raw hr
    · exact sound_free object "bigint"
  fails e hfail := by
    rcases bind_eq_error hfail with hfail | ⟨regex, -, hfail⟩
    · exact ⟨_, List.mem_cons_self, regex?_checks.fails e hfail⟩
    · rcases bind_eq_error hfail with hfail | ⟨raw, -, hfail⟩
      · exact ⟨_, List.mem_cons_of_mem _ List.mem_cons_self, raw_checks.fails e hfail⟩
      · cases hfail

theorem templateElement_covers :
    object.Covers [("value", .template), ("tail", .free)] object.templateElement := by
  have hc : object.Covers [("value", .template), ("tail", .free)]
      (id <$> object.templateElement) :=
    templateElement_checks.covers (by simp) (by simp [Rule.arity?])
  rwa [id_map] at hc

theorem covers_form (h : schema object.typeName = some rules) :
    object.Covers rules object.form.kind := by
  obtain ⟨typeName, members⟩ := object
  change schema typeName = some rules at h
  unfold schema at h
  split at h
  case h_73 => cases h
  all_goals
    cases h
    first
    | exact literal_covers
    | exact covers_of_ok (by simp [Rule.arity?])
    | exact text_checks.covers (by simp) (by simp)
    | exact word_checks.covers (by simp) (by simp [Rule.arity?])
    | exact propertyKind_checks.covers (by simp) (by simp [Rule.arity?])
    | exact templateElement_covers

end Kinds

end NodeObject

end SyntaxMarkup
