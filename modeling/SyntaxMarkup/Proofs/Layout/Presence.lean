import SyntaxMarkup.Proofs.Layout.Units

namespace SyntaxMarkup

namespace Builder

variable {indent : String}

def Shows (builder : Builder) (node : Nat) : Prop :=
  (builder.unitFor? node).isSome

theorem Shows.apply {builder : Builder} {node : Nat} (h : builder.Shows node) (event : Event) :
    (builder.apply indent event).Shows node := by
  cases event with
  | openUnit label title other =>
    rw [Shows, Builder.apply, unitFor?_openUnit]
    split
    · rfl
    · exact h
  | text content => rwa [Shows, Builder.apply, unitFor?_text]
  | pad level => rwa [Shows, Builder.apply, unitFor?_text]
  | close => rwa [Shows, Builder.apply, unitFor?_close]
  | share other target =>
    rw [Shows, Builder.apply, unitFor?_share]
    split
    · rw [Option.isSome_or, show (builder.unitFor? node).isSome = true from h, Bool.or_true]
    · exact h

theorem Shows.run {builder : Builder} {node : Nat} (h : builder.Shows node)
    (events : List Event) : (events.foldl (Builder.apply indent) builder).Shows node := by
  induction events generalizing builder with
  | nil => exact h
  | cons event rest ih => exact ih (h.apply event)

theorem shows_openUnit (builder : Builder) (label : String) (title : Option String) (node : Nat) :
    (builder.apply indent (.openUnit label title node)).Shows node := by
  rw [Shows, Builder.apply, unitFor?_openUnit, if_pos rfl]
  rfl

theorem Shows.share {builder : Builder} {target : Nat} (h : builder.Shows target) (node : Nat) :
    (builder.apply indent (.share node target)).Shows node := by
  rw [Shows, Builder.apply, unitFor?_share, if_pos rfl, Option.isSome_or,
    show (builder.unitFor? target).isSome = true from h, Bool.true_or]

theorem shows_shares {builder : Builder} {target : Nat} (h : builder.Shows target)
    (nodes : List Nat) : ∀ node ∈ nodes, ((nodes.map fun node => Event.share node target).foldl
      (Builder.apply indent) builder).Shows node := by
  induction nodes generalizing builder with
  | nil => exact nofun
  | cons node rest ih => exact List.forall_mem_cons.mpr ⟨(h.share node).run _, ih (h.apply _)⟩

/-- Only nodes that are named get a unit. -/
theorem named_of_shows_run {builder : Builder} {events : List Event} {node : Nat}
    (h : (events.foldl (Builder.apply indent) builder).Shows node) :
    builder.Shows node ∨ node ∈ events.flatMap Event.named := by
  by_cases hn : node ∈ events.flatMap Event.named
  · exact .inr hn
  · rw [Shows, unitFor?_run builder hn] at h
    exact .inl h

/-- Whether the nodes at and below a node have units, programs aside. -/
def ShowsAll (builder : Builder) (node : Node Nat) : Prop :=
  ∀ below ∈ node.preorder, below.kind.isProgram = false → builder.Shows below.id

theorem ShowsAll.apply {builder : Builder} {node : Node Nat} (h : builder.ShowsAll node)
    (event : Event) : (builder.apply indent event).ShowsAll node :=
  fun below hm other => (h below hm other).apply event

theorem ShowsAll.run {builder : Builder} {node : Node Nat} (h : builder.ShowsAll node)
    (events : List Event) : (events.foldl (Builder.apply indent) builder).ShowsAll node :=
  fun below hm other => (h below hm other).run events

end Builder

theorem Kind.not_isProgram_of_isIdentifier {kind : Kind} (identifier : kind.isIdentifier = true) :
    kind.isProgram = false := by
  cases kind <;> first | rfl | cases identifier

theorem Kind.not_isProgram_of_isUnknown {kind : Kind} (hu : kind.isUnknown = true) :
    kind.isProgram = false := by
  cases kind <;> first | rfl | cases hu

namespace Node

variable {indent : String}

theorem named_mem_preorder {ι : Type} (node : Node ι) : node.named ∈ node.preorder := by
  unfold named
  split
  next left rest _ shape =>
    refine child_mem_preorder ?_
    rw [children, shape]
    exact List.mem_cons_self
  next => exact node.self_mem_preorder

theorem preorder_of_isIdentifier {node : Node Nat} (hr : node.Regular)
    (identifier : node.kind.isIdentifier = true) : node.preorder = [node] := by
  have hl : node.kind.fields? = some [] := by
    unfold Kind.isIdentifier at identifier
    split at identifier
    next eq => rw [eq]; rfl
    next => cases identifier
  have none : node.fields = [] := List.map_eq_nil_iff.mp (hr [] hl)
  rw [preorder_eq, children_eq_flatMap, none]
  rfl

/-- Once the pieces are written, the children that they use have units with all below them. -/
theorem showsAll_pieces {level : Nat} (builder : Builder) {pieces : List Piece}
    {used before : List (Node Nat)} (whole : List.Forall₂ Use.Whole (Piece.uses pieces) used)
    (hg : Use.Grounded before (Piece.uses pieces))
    (earlier : ∀ node ∈ before, builder.ShowsAll node)
    (hr : ∀ child ∈ used, child.Regular)
    (hw : ∀ child ∈ used, ∀ place level builder,
      (place = .method → child.isNamedFunction = false) →
      ((child.events place level).foldl (Builder.apply indent) builder).ShowsAll child) :
    ∀ child ∈ used, ((pieces.flatMap (Piece.events level)).foldl
      (Builder.apply indent) builder).ShowsAll child := by
  induction pieces generalizing used before builder with
  | nil =>
    cases whole
    exact nofun
  | cons piece rest ih =>
    rw [List.flatMap_cons, List.foldl_append]
    cases piece with
    | text | pad =>
      exact ih _ whole hg (fun node hm => (earlier node hm).run _) hr hw
    | child part place deeper =>
      obtain ⟨method, use, hmethod⟩ := Piece.exists_use?_child part place deeper
      rw [Piece.uses, List.filterMap_cons_some use] at whole hg
      obtain ⟨child, others, ⟨rfl, unnamed⟩, tail, rfl⟩ := List.forall₂_cons_left_iff.mp whole
      have now := hw child List.mem_cons_self place (level + deeper) builder fun hp =>
        unnamed (hmethod hp)
      have all := ih _ tail hg
        (List.forall_mem_cons.mpr ⟨now, fun node hm => (earlier node hm).run _⟩)
        (fun other hm => hr other (.tail _ hm)) (fun other hm => hw other (.tail _ hm))
      exact List.forall_mem_cons.mpr ⟨now.run _, all⟩
    | share node target =>
      obtain ⟨child, others, ⟨rfl, identifier⟩, tail, rfl⟩ := List.forall₂_cons_left_iff.mp whole
      obtain ⟨⟨source, hk, rfl, hn⟩, hg⟩ := hg
      -- the unit that is shared is that of an identifier met before
      have hshown : builder.Shows source.named.id :=
        earlier source hk _ source.named_mem_preorder (Kind.not_isProgram_of_isIdentifier hn)
      have now : (builder.apply indent (.share child.id source.named.id)).ShowsAll child := by
        intro below hm _
        rw [preorder_of_isIdentifier (hr child List.mem_cons_self) identifier] at hm
        cases List.mem_singleton.mp hm
        exact hshown.share child.id
      have all := ih (builder.apply indent (.share child.id source.named.id)) tail hg
        (fun node hm => (earlier node hm).apply _)
        (fun other hm => hr other (.tail _ hm)) (fun other hm => hw other (.tail _ hm))
      exact List.forall_mem_cons.mpr ⟨now.run _, all⟩

/-- A node without a template shares its unit with all nodes below it. -/
theorem showsAll_unknown {node : Node Nat} (hu : node.kind.isUnknown = true)
    {builder : Builder} (ho : builder.Shows node.id) (place : Place) (level : Nat) :
    (((node.pieces node.parts place).flatMap (Piece.events level)).foldl
      (Builder.apply indent) builder).ShowsAll node := by
  intro below hm _
  rw [preorder_eq_cons] at hm
  rcases List.mem_cons.mp hm with rfl | hm
  · exact ho.run _
  · rw [written_of_unknown hu, List.foldl_cons]
    exact Builder.shows_shares (ho.apply _) _ _ (List.mem_map_of_mem hm)

/-- The nodes of a tree that are not below a node of a type without rules. -/
def shown {ι : Type} : Node ι → List (Node ι) :=
  fold fun node fields =>
    node :: if node.kind.isUnknown then []
      else (fields.flatMap (·.slot.children)).flatMap Computed.value

theorem shown_eq {ι : Type} (node : Node ι) :
    node.shown = node :: if node.kind.isUnknown then [] else node.children.flatMap shown := by
  rw [shown, fold_eq, flatMap_children_computed, List.flatMap_map]
  rfl

/-- Writing a node gives units to all nodes at and below it, if there is room for them. -/
theorem showsAll_events (node : Node Nat) (hr : ∀ below ∈ node.preorder, below.Regular)
    (hcom : ∀ below ∈ node.shown, below.kind.isComplete below.slots = true) (place : Place)
    (level : Nat) (builder : Builder) (unnamed : place = .method → node.isNamedFunction = false) :
    ((node.events place level).foldl (Builder.apply indent) builder).ShowsAll node := by
  induction node using induction generalizing place level builder with
  | step node ih =>
    have inside (builder : Builder) (ho : node.kind.isProgram = false → builder.Shows node.id) :
        (((node.pieces node.parts place).flatMap (Piece.events level)).foldl
          (Builder.apply indent) builder).ShowsAll node := by
      cases hl : node.kind.fields? with
      | none =>
        have hu := Kind.fields?_eq_none.mp hl
        exact showsAll_unknown hu (ho (Kind.not_isProgram_of_isUnknown hu)) place level
      | some fields =>
        have hk : node.kind.isUnknown = false := by
          rw [← Bool.not_eq_true, ← Kind.fields?_eq_none, hl]
          exact nofun
        obtain ⟨used, lost, -, perm, all⟩ :=
          cover_pieces (hr _ node.self_mem_preorder) hl place
        rw [shown_eq, hk] at hcom
        obtain ⟨here, below⟩ := List.forall_mem_cons.mp hcom
        obtain ⟨rfl, hg, whole⟩ := all ⟨here, unnamed⟩
        rw [List.append_nil] at perm
        have children := @showsAll_pieces indent level builder _ _ [] whole hg nofun
          (fun child hm => hr child (child_mem_preorder (perm.subset hm)))
          (fun child hm => ih child (perm.subset hm)
            (fun other h => hr other (mem_preorder_of_child (perm.subset hm) h))
            (fun other h => below other (List.mem_flatMap_of_mem (perm.subset hm) h)))
        intro other hm hp
        rw [preorder_eq] at hm
        rcases List.mem_cons.mp hm with rfl | hm
        · exact (ho hp).run _
        · obtain ⟨child, hc, hm⟩ := List.mem_flatMap.mp hm
          exact children child (perm.mem_iff.mpr hc) other hm hp
    rw [events_eq, framed_eq]
    cases program : node.kind.isProgram with
    | true => exact inside builder (by simp [program])
    | false =>
      rw [if_neg (by simp), List.cons_append, List.foldl_cons, List.foldl_append]
      exact (inside _ fun _ => Builder.shows_openUnit builder _ _ node.id).run _

end Node

namespace Tree

variable {tree : Tree}

def Complete (tree : Tree) : Prop :=
  ∀ node ∈ tree.root.shown, node.kind.isComplete node.slots = true

instance (tree : Tree) : Decidable tree.Complete :=
  inferInstanceAs (Decidable (∀ node ∈ tree.root.shown, _))

theorem showsAll_written (hr : tree.Regular) (hcom : tree.Complete)
    (options : RenderOptions) : (tree.written options).ShowsAll tree.root :=
  tree.root.showsAll_events hr hcom .plain 0 {} nofun

theorem mem_descendants_of_shows (hr : tree.Regular) (options : RenderOptions)
    (program : tree.root.kind.isProgram = true) {id : Nat}
    (shows : (tree.written options).Shows id) : id ∈ tree.root.descendants.map Node.id := by
  have inside := Node.named_inside (hr _ tree.root.self_mem_preorder) (fun child hc =>
    child.named_events fun below h => hr below (Node.mem_preorder_of_child hc h)) .plain 0
  refine inside.subset ?_
  have events : tree.events =
      (tree.root.pieces tree.root.parts .plain).flatMap (Piece.events 0) := by
    rw [Tree.events, Node.events_eq, Node.framed_eq, if_pos program]
  rw [← events]
  rcases Builder.named_of_shows_run shows with never | hn
  · simp [Builder.Shows, Builder.unitFor?] at never
  · exact hn

theorem size_nodeUnits (hr : tree.Regular) (hcom : tree.Complete)
    (options : RenderOptions) (program : tree.root.kind.isProgram = true)
    (only : ∀ node ∈ tree.root.descendants, node.kind.isProgram = false) :
    (tree.written options).nodeUnits.size = tree.size - 1 := by
  have ids : (tree.written options).nodeUnits.keys.Perm (tree.root.descendants.map Node.id) := by
    refine (List.perm_ext_iff_of_nodup Std.TreeMap.nodup_keys tree.nodup_descendants.2).mpr
      fun id => ?_
    rw [Std.TreeMap.mem_keys, Std.TreeMap.mem_iff_isSome_getElem?]
    constructor
    · exact mem_descendants_of_shows hr options program
    · intro h
      obtain ⟨node, hm, rfl⟩ := List.mem_map.mp h
      exact showsAll_written hr hcom options node
        (Node.mem_preorder_of_mem_descendants hm) (only node hm)
  rw [← Std.TreeMap.length_keys, ids.length_eq, List.length_map, Node.descendants,
    List.length_tail, ← tree.root.postorder_perm_preorder.length_eq, Node.length_postorder, size_eq]

/-- No node is lost in the markup of a lowered tree whose templates have room for all children:
every node but a program has a unit. So the nodes with a unit are as many as the nodes below the
root, if that is the only program. -/
theorem unitFor?_of_complete {value : Json} {tree : Tree} (h : Tree.ofJson value = .ok tree)
    (complete : tree.Complete) (options : RenderOptions) :
    (∀ id node, tree.node? id = some node → node.kind.isProgram = false →
      ∃ u < (tree.render options).unitCount, (tree.render options).unitFor? id = some u) ∧
    ((∀ id node, tree.node? id = some node → (node.kind.isProgram = true ↔ id = tree.root.id)) →
      (tree.render options).nodeCount = tree.size - 1) := by
  have hr := regular_of_ofJson h
  have hs := tree.sound_written options
  constructor
  · intro id node hf hp
    obtain ⟨hm, rfl⟩ := node?_eq_some_iff.mp hf
    obtain ⟨u, hshown⟩ := Option.isSome_iff_exists.mp
      (showsAll_written hr complete options node hm hp)
    refine ⟨u, ?_, hshown⟩
    exact hs.unitCount_finish ▸ hs.shown _ _ hshown
  · intro only
    have root := only _ _ (node?_id tree.root.self_mem_preorder)
    refine size_nodeUnits hr complete options (root.mpr rfl) fun node hm => ?_
    have other : node.id ≠ tree.root.id := fun eq =>
      tree.nodup_descendants.1 (eq ▸ List.mem_map_of_mem hm)
    have ht := Node.mem_preorder_of_mem_descendants hm
    exact Bool.eq_false_iff.mpr fun program => other ((only _ _ (node?_id ht)).mp program)

def sharedSample : Json :=
  .ofNode "Program" [("body", .array [.ofNode "ImportDeclaration"
    [("specifiers", .array [.ofNode "ImportSpecifier"
        [("imported", .ofNode "Identifier" [("name", .string "a")]),
          ("local", .ofNode "Identifier" [("name", .string "a")])]]),
      ("source", .ofNode "Literal" [("raw", .string "'m'")])]])]

/-- The name inside the braces has the unit of the imported one. -/
theorem unitFor?_of_sharedSample :
    ∃ tree node, Tree.ofJson sharedSample = .ok tree ∧ tree.Complete ∧ tree.node? 1 = some node ∧
      (∃ u < (tree.render {}).unitCount, (tree.render {}).unitFor? 1 = some u) ∧
      (tree.render {}).nodeCount = 5 := by
  obtain ⟨tree, hj, facts⟩ := exists_of_ofJson
    (f := fun tree => (decide tree.Complete, tree.size,
      (tree.node? 1).map fun node => node.kind.isProgram,
      tree.root.preorder.all fun node => node.kind.isProgram == (node.id == tree.root.id)))
    (b := (true, 6, some false, true))
    (by decide +kernel : (ofJson sharedSample).toOption.map _ = some _)
  simp only [Prod.mk.injEq, decide_eq_true_eq, Option.map_eq_some_iff, List.all_eq_true] at facts
  obtain ⟨hcom, size, ⟨node, hf, hp⟩, only⟩ := facts
  obtain ⟨hshown, count⟩ := unitFor?_of_complete hj hcom {}
  refine ⟨tree, node, hj, hcom, hf, hshown 1 node hf hp, ?_⟩
  rw [count fun id node hf => ?_, size]
  obtain ⟨hm, rfl⟩ := node?_eq_some_iff.mp hf
  rw [beq_iff_eq.mp (only node hm), beq_iff_eq]

end Tree

end SyntaxMarkup
