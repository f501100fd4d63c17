import SyntaxMarkup.Proofs.Tree.Conformance
import SyntaxMarkup.Proofs.Tree.Congruence

namespace SyntaxMarkup

namespace NodeObject

variable {object partner : NodeObject} {name : String} {rule : Rule}

/-- The type and the places in the source text are under no rule. -/
theorem Demands.apart (hd : object.Demands name rule) : name ∉ "type" :: positionFields := by
  cases hd with
  | listed hk hm => exact apart_of_schema hk _ hm
  | child _ ha | children _ ha => exact ha

/-- No field is under two rules. -/
theorem demands_unique {other : Rule} (hdemands : object.Demands name rule)
    (hdemands' : object.Demands name other) : rule = other := by
  cases hdemands with
  | listed hknown hmem =>
    cases hdemands' with
    | listed hknown' hmem' =>
      cases hknown.symm.trans hknown'
      exact congrArg Prod.snd (eq_of_nodup_map (nodup_schema hknown) hmem hmem' rfl)
    | child hu | children hu => cases hknown.symm.trans hu
  | child hu _ hfound is =>
    cases hdemands' with
    | listed hknown => cases hknown.symm.trans hu
    | child => rfl
    | children _ _ hfound' =>
      cases hfound.symm.trans hfound'
      cases is.1
  | children hu _ hfound =>
    cases hdemands' with
    | listed hknown => cases hknown.symm.trans hu
    | child _ _ hfound' is =>
      cases hfound.symm.trans hfound'
      cases is.1
    | children => rfl

/-- A field that neither the kind nor the children of a node depend on. -/
def Unread (object : NodeObject) (name : String) : Prop :=
  name ≠ "type" ∧ ∀ rule, ¬object.Demands name rule

theorem unread_of_listed {rules : List (String × Rule)}
    (hknown : schema object.typeName = some rules) (ht : name ≠ "type")
    (ha : ∀ entry ∈ rules, entry.1 ≠ name) : object.Unread name := by
  refine ⟨ht, fun rule hd => ?_⟩
  cases hd with
  | listed hknown' hm =>
    cases hknown.symm.trans hknown'
    exact ha _ hm rfl
  | child hu | children hu => cases hknown.symm.trans hu

theorem unread_of_unlisted (hu : schema object.typeName = none) (ht : name ≠ "type")
    (hc : ∀ value, object.members.lookup name = some value → arity? value = none) :
    object.Unread name := by
  refine ⟨ht, fun rule hd => ?_⟩
  cases hd with
  | listed hk => cases hk.symm.trans hu
  | child _ _ hf is =>
    cases (hc _ hf).symm.trans (arity?_eq_some_iff.mpr (.inl ⟨rfl, _, is⟩))
  | children _ _ hf all hm is =>
    cases (hc _ hf).symm.trans
      (arity?_eq_some_iff.mpr (.inr ⟨rfl, _, rfl, all, _, hm, _, is⟩))

/-- Two objects have values in a field with children. -/
def Share (object partner : NodeObject) (name : String) (value other : Json) : Prop :=
  ∃ rule, rule.arity?.isSome ∧ object.Demands name rule ∧ partner.Demands name rule ∧
    object.field? name = some value ∧ partner.field? name = some other

/-- A field that is unread, or that is the same in two objects, or that holds children in both. A
field that is null counts as absent. -/
def Agree (object partner : NodeObject) (name : String) : Prop :=
  (object.Unread name ∧ partner.Unread name) ∨ object.field? name = partner.field? name ∨
    ∃ value other, object.Share partner name value other

end NodeObject

/-- Values that differ, at the nodes that lowering visits, only in unread fields and in fields that
are null on one side and absent on the other. A literal without a text is shown as its value, for
which null counts. -/
inductive Json.Alike : Json → Json → Prop
  | same (value : Json) : value.Alike value
  | items {items others : List Json} (length : items.length = others.length)
      (each : ∀ (index : Nat) item other, items[index]? = some item →
        others[index]? = some other → item.Alike other) :
      (Json.array items).Alike (.array others)
  | node {value other : Json} {object partner : NodeObject} (is : value.Is object)
      (is' : other.Is partner) (named : object.typeName = partner.typeName)
      (agree : ∀ name, object.Agree partner name)
      (children : ∀ name inner inner', object.Share partner name inner inner' →
        inner.Alike inner')
      (literal : object.typeName = "Literal" → object.text? "raw" = none →
        object.members.lookup "value" = partner.members.lookup "value") :
      value.Alike other

/-- The tree of a node without its places in the source text. -/
def Node.placeless {ι : Type} : Node ι → Node ι :=
  rebuild (fun number => number) fun _ => none

section Mapped

variable {α β γ ε : Type}

theorem map_eq_map_iff {f : α → γ} {g : β → γ} {x : Except ε α} {y : Except ε β} :
    f <$> x = g <$> y ↔ (∃ e, x = .error e ∧ y = .error e) ∨
      ∃ a b, x = .ok a ∧ y = .ok b ∧ f a = g b := by
  cases x with
  | error e =>
    cases y with
    | error => simp [Functor.map, Except.map, eq_comm]
    | ok => simp [Functor.map, Except.map]
  | ok a =>
    cases y with
    | error => simp [Functor.map, Except.map]
    | ok => simp [Functor.map, Except.map]

/-- What two results have in common under a function stays in common in a larger result. -/
theorem map_map_congr {x y : Except ε α} {f : α → α} {make : α → β} {g : β → β}
    (same : f <$> x = f <$> y) (inside : ∀ a, g (make a) = make (f a)) :
    g <$> make <$> x = g <$> make <$> y := by
  have out (x : Except ε α) : g <$> make <$> x = make <$> f <$> x := by
    cases x with
    | error => rfl
    | ok a => exact congrArg Except.ok (inside a)
  rw [out, out, same]

theorem map_mapM_congr {f : α → Except ε γ} {g : β → Except ε γ} {F : γ → γ} {as : List α}
    {bs : List β} (each : List.Forall₂ (fun a b => F <$> f a = F <$> g b) as bs) :
    List.map F <$> as.mapM f = List.map F <$> bs.mapM g := by
  induction each with
  | nil => rfl
  | cons first _ ih =>
    rw [List.mapM_cons, List.mapM_cons]
    rcases map_eq_map_iff.mp first with ⟨e, he, he'⟩ | ⟨a, b, hok, hok', same⟩
    · rw [he, he']
      rfl
    · rw [hok, hok']
      rcases map_eq_map_iff.mp ih with ⟨e, he, he'⟩ | ⟨as, bs, later, later', rest⟩
      · simp only [he, he']
        rfl
      · simp only [later, later']
        exact congrArg Except.ok (congrArg₂ List.cons same rest)

end Mapped

theorem Node.placeless_eq {ι : Type} (node : Node ι) :
    node.placeless = .mk node.id node.kind none (node.fields.map (Field.map placeless)) :=
  rebuild_eq _ _ node

/-- Two readings of which lowering makes the same. -/
structure Described.Like (first second : Described) : Prop where
  node : first.value.isNode = second.value.isNode
  null : first.value.isNull = second.value.isNull
  tree : Node.placeless <$> first.tree = Node.placeless <$> second.tree

structure Reading.Like (first second : Reading) : Prop where
  whole : first.toDescribed.Like second.toDescribed
  items : Option.Rel (List.Forall₂ Described.Like) first.items second.items

theorem Described.like_self (described : Described) : described.Like described :=
  ⟨rfl, rfl, rfl⟩

theorem Reading.like_self (reading : Reading) : reading.Like reading := by
  refine ⟨reading.toDescribed.like_self, ?_⟩
  cases reading.items with
  | none => exact .none
  | some items => exact .some (List.forall₂_same.mpr fun item _ => item.like_self)

namespace NodeObject

variable {object partner : NodeObject} (hn : object.typeName = partner.typeName)
variable {name : String} {readings readings' : List (String × Reading)}

include hn

theorem child_congr {demand : Demand} {part part' : Described} (hl : part.Like part') :
    Node.placeless <$> object.child name demand part =
      Node.placeless <$> partner.child name demand part' := by
  unfold child
  rw [hl.node]
  split
  · exact hl.tree
  · rw [invalid, hn, invalid]

theorem sparseChild_congr {part part' : Described} (hl : part.Like part') :
    Option.map Node.placeless <$> object.sparseChild name part =
      Option.map Node.placeless <$> partner.sparseChild name part' := by
  unfold sparseChild
  rw [hl.null]
  split
  · rfl
  · exact map_map_congr (child_congr hn hl) fun _ => rfl

/-- A list is read item by item, so what the items have in common the list has. -/
theorem items_congr {α : Type} {F : α → α} {f g : Described → Except TreeError α}
    {make : List α → Slot (Node Unit)} {reading reading' : Reading} (hl : reading.Like reading')
    (each : ∀ part part' : Described, part.Like part' → F <$> f part = F <$> g part')
    (inside : ∀ results, (make results).map Node.placeless = make (results.map F)) :
    (Slot.map Node.placeless <$> do
      let items ← object.items name reading
      return make (← items.mapM f)) =
    Slot.map Node.placeless <$> do
      let items ← partner.items name reading'
      return make (← items.mapM g) := by
  have same := hl.items
  unfold NodeObject.items
  cases items : reading.items with
  | none =>
    rw [items] at same
    cases items' : reading'.items with
    | none =>
      simp only [invalid, hn]
      rfl
    | some =>
      rw [items'] at same
      cases same
  | some parts =>
    rw [items] at same
    cases items' : reading'.items with
    | none =>
      rw [items'] at same
      cases same
    | some parts' =>
      rw [items'] at same
      cases same with
      | some parts =>
        have together := map_mapM_congr (F := F) (f := f) (g := g) (parts.imp fun _ _ => each _ _)
        exact map_map_congr together inside

theorem slot_congr {arity : Arity}
    (hl : Option.Rel Reading.Like (reading? readings name) (reading? readings' name)) :
    Slot.map Node.placeless <$> object.slot readings name arity =
      Slot.map Node.placeless <$> partner.slot readings' name arity := by
  unfold NodeObject.slot
  cases hfound : reading? readings name with
  | none =>
    rw [hfound] at hl
    cases hfound' : reading? readings' name with
    | none => cases arity <;> simp only [missing, hn]
    | some =>
      rw [hfound'] at hl
      cases hl
  | some reading =>
    rw [hfound] at hl
    cases hfound' : reading? readings' name with
    | none =>
      rw [hfound'] at hl
      cases hl
    | some reading' =>
      rw [hfound'] at hl
      cases hl with
      | some hl =>
        cases arity with
        | one => exact map_map_congr (child_congr hn hl.whole) fun _ => rfl
        | maybe => exact map_map_congr (child_congr hn hl.whole) fun _ => rfl
        | many => exact items_congr hn hl (fun _ _ => child_congr hn) fun _ => rfl
        | sparse => exact items_congr hn hl (fun _ _ => sparseChild_congr hn) fun _ => rfl

theorem childFields_congr (children : object.form.children = partner.form.children)
    (hl : ∀ entry ∈ object.form.children,
      Option.Rel Reading.Like (reading? readings entry.1) (reading? readings' entry.1)) :
    List.map (Field.map Node.placeless) <$> object.childFields readings =
      List.map (Field.map Node.placeless) <$> partner.childFields readings' := by
  rw [childFields, childFields, ← children]
  refine map_mapM_congr (List.forall₂_same.mpr fun entry hm => ?_)
  exact map_map_congr (slot_congr hn (hl entry hm)) fun _ => rfl

theorem node_congr (kind : object.form.kind = partner.form.kind)
    (first : object.form.childrenFirst = partner.form.childrenFirst)
    (children : object.form.children = partner.form.children)
    (hl : ∀ entry ∈ object.form.children,
      Option.Rel Reading.Like (reading? readings entry.1) (reading? readings' entry.1)) :
    Node.placeless <$> object.node readings = Node.placeless <$> partner.node readings' := by
  have fields := childFields_congr hn children hl
  unfold NodeObject.node
  rw [← kind, ← first]
  rcases map_eq_map_iff.mp fields with ⟨e, he, he'⟩ | ⟨fields, fields', hok, hok', same⟩
  · rw [he, he']
    cases object.form.kind <;> rfl
  · rw [hok, hok']
    cases object.form.kind with
    | error => rfl
    | ok kind =>
      have halike : (Node.mk () kind object.span? fields).placeless =
          (Node.mk () kind partner.span? fields').placeless := by
        rw [Node.placeless_eq, Node.placeless_eq]
        exact congrArg (Node.mk () kind none) same
      split <;> exact congrArg Except.ok halike

end NodeObject

namespace NodeObject

variable {object partner : NodeObject} {name : String} {rule : Rule}

theorem Agree.symm (hagree : object.Agree partner name) : partner.Agree object name := by
  rcases hagree with ⟨hu, hu'⟩ | same | ⟨value, other, rule, arity, hdemands, hdemands', h, h'⟩
  · exact .inl ⟨hu', hu⟩
  · exact .inr (.inl same.symm)
  · exact .inr (.inr ⟨other, value, rule, arity, hdemands', hdemands, h', h⟩)

theorem Demands.of_agree (hn : object.typeName = partner.typeName)
    (hagree : object.Agree partner name) (hrule : object.Demands name rule) :
    partner.Demands name rule := by
  have hk {value : Json} (hf : object.members.lookup name = some value)
      (hpresent : value ≠ .null) (same : object.field? name = partner.field? name) :
      partner.members.lookup name = some value :=
    (field?_eq_some_iff.mp (same ▸ field?_eq_some_iff.mpr ⟨hf, hpresent⟩)).1
  rcases hagree with ⟨hunread, -⟩ | same | ⟨_, _, other, -, hrule', hrule'', -⟩
  · exact absurd hrule (hunread.2 rule)
  · cases hrule with
    | listed hl hm => exact .listed (hn ▸ hl) hm
    | child hu ha hf is =>
      refine .child (hn ▸ hu) ha (hk hf ?_ same) is
      rintro rfl
      cases is.1
    | children hu ha hf all hm is =>
      exact .children (hn ▸ hu) ha (hk hf (fun h => nomatch h) same) all hm is
  · rwa [demands_unique hrule hrule']

/-- A field without children is the same in two objects that agree on it. -/
theorem Agree.field?_eq (hagree : object.Agree partner name) (hdemands : object.Demands name rule)
    (scalar : rule.arity? = none) : object.field? name = partner.field? name := by
  rcases hagree with ⟨hunread, -⟩ | same | ⟨_, _, other, children, hdemands', -⟩
  · exact absurd hdemands (hunread.2 rule)
  · exact same
  · rw [← demands_unique hdemands hdemands', scalar] at children
    cases children

theorem children_form_congr (ordered : object.members.Ordered)
    (ordered' : partner.members.Ordered) (hn : object.typeName = partner.typeName)
    (hd : ∀ name rule, object.Demands name rule ↔ partner.Demands name rule) :
    object.form.children = partner.form.children := by
  cases hk : schema object.typeName with
  | some rules => rw [children_form hk, children_form (hn ▸ hk)]
  | none =>
    have same (entry : String × Arity) :
        entry ∈ object.unknownChildren ↔ entry ∈ partner.unknownChildren := by
      have children := (mem_children_form ordered : (entry.1, entry.2) ∈ _ ↔ _)
      have children' := (mem_children_form ordered' : (entry.1, entry.2) ∈ _ ↔ _)
      rw [form_of_unlisted hk] at children
      rw [form_of_unlisted (hn ▸ hk)] at children'
      simp only [hd] at children
      exact children.trans children'.symm
    have increasing := Json.pairwise_unknownChildren ordered
    have increasing' := Json.pairwise_unknownChildren ordered'
    have perm := (List.perm_ext_iff_of_nodup (Json.nodup_unknownChildren ordered).of_map
      (Json.nodup_unknownChildren ordered').of_map).mpr same
    rw [form_of_unlisted hk, form_of_unlisted (hn ▸ hk)]
    exact perm.eq_of_pairwise (fun _ _ _ _ less more => absurd less (String.lt_asymm more))
      increasing increasing'

theorem form_congr_of_agree (hn : object.typeName = partner.typeName)
    (hagree : ∀ name, object.Agree partner name)
    (literal : object.typeName = "Literal" → object.text? "raw" = none →
      object.members.lookup "value" = partner.members.lookup "value") :
    object.form.kind = partner.form.kind ∧
      object.form.childrenFirst = partner.form.childrenFirst := by
  cases hk : schema object.typeName with
  | some rules =>
    exact form_congr hk hn
      (fun entry hm scalar => (hagree entry.1).field?_eq (.listed hk hm) scalar) literal
  | none =>
    rw [form_of_unlisted hk, form_of_unlisted (hn ▸ hk)]
    exact ⟨congrArg (Except.ok ∘ Kind.unknown) hn, rfl⟩

end NodeObject

namespace Json

theorem Ordered.field {value inner : Json} {object : NodeObject} {name : String}
    (ordered : value.Ordered) (is : value.Is object) (hf : object.field? name = some inner) :
    inner.Ordered := by
  obtain ⟨rfl, -⟩ := is
  exact ordered_of_lookup ordered (NodeObject.field?_eq_some_iff.mp hf).1

/-- Each step down through alike values is a step that lowering makes alike. -/
theorem like_of_alike {value other : Json} (halike : value.Alike other) (ordered : value.Ordered)
    (ordered' : other.Ordered) : value.reading.Like other.reading := by
  induction halike with
  | same value => exact value.reading.like_self
  | @items items others length each ih =>
    refine ⟨⟨rfl, rfl, rfl⟩, .some ?_⟩
    rw [readItems_eq_map, readItems_eq_map, List.forall₂_map_left_iff, List.forall₂_map_right_iff]
    refine List.forall₂_iff_get.mpr ⟨length, fun index hknown hknown' => ?_⟩
    have hmem := itemsOrdered_iff.mp ordered _ (List.get_mem items ⟨index, hknown⟩)
    have hmem' := itemsOrdered_iff.mp ordered' _ (List.get_mem others ⟨index, hknown'⟩)
    exact (ih index _ _ (List.getElem?_eq_getElem hknown) (List.getElem?_eq_getElem hknown') hmem
      hmem').whole
  | @node value other object partner is is' hn hagree _ literal ih =>
    have hnode : value.isNode = other.isNode := by
      rw [isNode_iff.mpr ⟨object, is⟩, isNode_iff.mpr ⟨partner, is'⟩]
    have tree : Node.placeless <$> value.reading.tree = Node.placeless <$> other.reading.tree := by
      rw [tree_reading is, tree_reading is']
      obtain ⟨kind, first⟩ := NodeObject.form_congr_of_agree hn hagree literal
      have children := NodeObject.children_form_congr (ordered.members is) (ordered'.members is')
        hn fun name rule => ⟨.of_agree hn (hagree name), .of_agree hn.symm (hagree name).symm⟩
      refine NodeObject.node_congr hn kind first children fun ⟨name, arity⟩ hmem => ?_
      obtain ⟨rule, hd, harity⟩ := (NodeObject.mem_children_form (ordered.members is)).mp hmem
      change Option.Rel Reading.Like (NodeObject.reading? _ name) (NodeObject.reading? _ name)
      rw [NodeObject.reading?_readMembers, NodeObject.reading?_readMembers]
      rcases hagree name with ⟨hunread, -⟩ | same | ⟨inner, inner', share⟩
      · exact absurd hd (hunread.2 rule)
      · rw [same]
        cases partner.field? name with
        | none => exact .none
        | some inner => exact .some inner.reading.like_self
      · obtain ⟨-, -, -, -, hfound, hfound'⟩ := id share
        rw [hfound, hfound']
        exact .some (ih name inner inner' share (ordered.field is hfound)
          (ordered'.field is' hfound'))
    obtain ⟨rfl, -⟩ := is
    obtain ⟨rfl, -⟩ := is'
    exact ⟨⟨hnode, rfl, tree⟩, .none⟩

end Json

namespace Tree

/-- Trees that differ in places alone have the same numbers. -/
theorem placeless_root {tree other : Tree}
    (same : tree.content.placeless = other.content.placeless) :
    tree.root.placeless = other.root.placeless := by
  have hnum (tree : Tree) : tree.root.placeless = (tree.content.placeless.number.run 0).1 :=
    (congrArg Prod.fst (Node.number_rebuild (fun _ => none) tree.content 0)).symm
  rw [hnum, hnum, same]

theorem map_node?_placeless {tree other : Tree} (same : tree.root.placeless = other.root.placeless)
    (id : Nat) : (tree.node? id).map Node.placeless = (other.node? id).map Node.placeless := by
  have hl (tree : Tree) :
      (tree.node? id).map Node.placeless = tree.root.placeless.postorder[id]? := by
    rw [node?, nodes, Node.placeless, Node.postorder_rebuild, List.getElem?_map,
      List.getElem?_toArray]
  rw [hl, hl, same]

theorem size_eq_of_placeless {tree other : Tree}
    (same : tree.root.placeless = other.root.placeless) : tree.size = other.size := by
  have hl (tree : Tree) : tree.size = tree.root.placeless.postorder.length := by
    rw [size, nodes, Node.placeless, Node.postorder_rebuild, List.length_map, List.size_toArray]
  rw [hl, hl, same]

/-- Lowering reads nothing but structure. -/
theorem ofJson_of_alike {value other : Json} (ordered : value.Ordered) (ordered' : other.Ordered)
    (alike : value.Alike other) :
    (∃ e, ofJson value = .error e ∧ ofJson other = .error e) ∨
      ∃ tree tree', ofJson value = .ok tree ∧ ofJson other = .ok tree' ∧
        tree.root.id = tree'.root.id ∧ tree.size = tree'.size ∧
        ∀ id, (tree.node? id).map Node.placeless = (tree'.node? id).map Node.placeless := by
  rcases map_eq_map_iff.mp (Json.like_of_alike alike ordered ordered').whole.tree with
    ⟨e, he, he'⟩ | ⟨content, content', ht, ht', same⟩
  · exact .inl ⟨e, ofJson_eq_error_iff.mpr he, ofJson_eq_error_iff.mpr he'⟩
  · have roots : (Tree.mk content).root.placeless = (Tree.mk content').root.placeless :=
      placeless_root same
    have ids := congrArg Node.id roots
    rw [Node.placeless_eq, Node.placeless_eq] at ids
    exact .inr ⟨⟨content⟩, ⟨content'⟩, ofJson_of_reading ht, ofJson_of_reading ht', ids,
      size_eq_of_placeless roots, map_node?_placeless roots⟩

/-- A program with an element of unknown type. -/
def placedSample : Json :=
  .object [("body", .array [.object [("text", .string "a"), ("type", .string "JSXText")]]),
    ("start", .ofNat 0), ("type", .string "Program")]

/-- The same program with another text and with what looks like a node in place of a position. -/
def unplacedSample : Json :=
  .object [("body", .array [.object [("text", .string "b"), ("type", .string "JSXText")]]),
    ("loc", .ofNode "Identifier" []), ("sourceType", .null), ("type", .string "Program")]

theorem element_alike (text text' : String) :
    (Json.object [("text", .string text), ("type", .string "JSXText")]).Alike
      (.object [("text", .string text'), ("type", .string "JSXText")]) := by
  have hunread (text : String) {name : String} (ht : name ≠ "type") : NodeObject.Unread
      ⟨"JSXText", [("text", .string text), ("type", .string "JSXText")]⟩ name := by
    refine NodeObject.unread_of_unlisted rfl ht fun value hf => ?_
    simp only [List.lookup_cons, beq_false_of_ne ht] at hf
    split at hf <;> cases hf
    rfl
  refine .node (⟨rfl, rfl⟩ : Json.Is _ ⟨"JSXText", _⟩) (⟨rfl, rfl⟩ : Json.Is _ ⟨"JSXText", _⟩) rfl
    (fun name => ?_) (fun name inner inner' share => ?_) fun h => ?_
  · by_cases htype : name = "type"
    · subst htype
      exact .inr (.inl rfl)
    · exact .inl ⟨hunread text htype, hunread text' htype⟩
  · obtain ⟨rule, -, hd, -⟩ := share
    have ht : name ≠ "type" := fun same => hd.apart (same ▸ List.mem_cons_self)
    exact absurd hd ((hunread text ht).2 rule)
  · cases (by decide : "JSXText" ≠ "Literal") h

theorem placedSample_alike : placedSample.Alike unplacedSample := by
  refine .node (⟨rfl, rfl⟩ : Json.Is _ ⟨"Program", _⟩) (⟨rfl, rfl⟩ : Json.Is _ ⟨"Program", _⟩) rfl
    (fun name => ?_) (fun name inner inner' share => ?_) (fun h => absurd h (by decide))
  · by_cases body : name = "body"
    · subst body
      exact .inr (.inr ⟨_, _, .nodes, rfl, .listed rfl (by simp), .listed rfl (by simp), rfl, rfl⟩)
    by_cases hl : name = "type" ∨ name = "sourceType"
    · rcases hl with rfl | rfl
      · exact .inr (.inl rfl)
      · exact .inr (.inl rfl)
    · obtain ⟨ht, hs⟩ := not_or.mp hl
      have hunread (members : Json.Members) : NodeObject.Unread ⟨"Program", members⟩ name :=
        NodeObject.unread_of_listed rfl ht (by simp [Ne.symm body, Ne.symm hs])
      exact .inl ⟨hunread _, hunread _⟩
  · obtain ⟨rule, children, hd, -, hfound, hfound'⟩ := share
    cases hd with
    | listed hknown hm =>
      cases hknown
      simp only [List.mem_cons, List.not_mem_nil, or_false] at hm
      rcases hm with ⟨rfl, rfl⟩ | ⟨rfl, rfl⟩
      · cases hfound
        cases hfound'
        refine .items rfl fun index item other hknown hknown' => ?_
        cases index with
        | zero =>
          cases hknown
          cases hknown'
          exact element_alike "a" "b"
        | succ => cases hknown
      · cases children
    | child hu | children hu => cases hu

theorem ofJson_of_placedSample :
    placedSample.Alike unplacedSample ∧ ∃ tree tree', ofJson placedSample = .ok tree ∧
      ofJson unplacedSample = .ok tree' ∧ tree.size = tree'.size ∧
      ∀ id, (tree.node? id).map Node.placeless = (tree'.node? id).map Node.placeless := by
  have ordered : placedSample.Ordered :=
    ⟨by decide, ⟨⟨by decide, trivial, trivial, trivial⟩, trivial⟩, trivial, trivial, trivial⟩
  have ordered' : unplacedSample.Ordered :=
    ⟨by decide, ⟨⟨by decide, trivial, trivial, trivial⟩, trivial⟩,
      Json.ordered_ofMembers ⟨trivial, trivial⟩, trivial, trivial, trivial⟩
  obtain ⟨tree, ht, -⟩ := exists_of_ofJson (f := fun tree => tree.size) (b := 2)
    (by decide +kernel : (ofJson placedSample).toOption.map _ = some _)
  rcases ofJson_of_alike ordered ordered' placedSample_alike with
    ⟨e, hfail, -⟩ | ⟨tree, tree', ht, ht', -, size, nodes⟩
  · cases ht.symm.trans hfail
  · exact ⟨placedSample_alike, tree, tree', ht, ht', size, nodes⟩

end Tree

end SyntaxMarkup
