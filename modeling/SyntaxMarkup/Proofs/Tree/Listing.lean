import SyntaxMarkup.Proofs.Tree.Addresses
import SyntaxMarkup.Proofs.Tree.Walk

namespace SyntaxMarkup

variable {ι : Type}

section Words

/-- Whether a text has letters only, and at least one. -/
def isWord (text : String) : Bool :=
  !text.toList.isEmpty && text.toList.all Char.isAlpha

theorem Kind.isWord_of_fields? {kind : Kind} {fields : List (String × Arity)}
    (hl : kind.fields? = some fields) {field : String × Arity} (hm : field ∈ fields) :
    isWord field.1 := by
  have all : fields.all fun field => isWord field.1 := by
    cases kind <;> simp only [fields?, Option.some.injEq, reduceCtorEq] at hl <;>
      subst hl <;> decide
  exact List.all_eq_true.mp all field hm

theorem Kind.exists_fields? {kind : Kind} (hn : ∀ name, kind ≠ .unknown name) :
    ∃ fields, kind.fields? = some fields := by
  cases kind with
  | unknown name => exact absurd rfl (hn name)
  | _ => exact ⟨_, rfl⟩

/-- How a path writes a step: the field, and the place in it in square brackets. -/
def accessorText (key : String) : Option Nat → String
  | some index => key ++ "[" ++ toString index ++ "]"
  | none => key

theorem accessor_eq (link : ParentLink) : link.accessor = accessorText link.key link.index := by
  obtain ⟨parent, key, _ | index⟩ := link <;> rfl

/-- What follows the field in a step. -/
def placeText : Option Nat → List Char
  | some index => '[' :: (index.repr.toList ++ [']'])
  | none => []

theorem toList_accessorText (key : String) (index : Option Nat) :
    (accessorText key index).toList = key.toList ++ placeText index := by
  cases index with
  | none => exact (List.append_nil _).symm
  | some index =>
    simp only [accessorText, String.toList_append, placeText, List.append_assoc]
    rfl

theorem takeWhile_accessorText {key : String} (word : isWord key) (index : Option Nat) :
    (accessorText key index).toList.takeWhile Char.isAlpha = key.toList := by
  obtain ⟨-, letters⟩ := Bool.and_eq_true_iff.mp word
  rw [toList_accessorText, List.takeWhile_append_of_pos (List.all_eq_true.mp letters)]
  cases index with
  | none => exact List.append_nil _
  | some index =>
    rw [placeText, List.takeWhile_cons_of_neg (by decide), List.append_nil]

theorem placeText_inj {index other : Option Nat} (h : placeText index = placeText other) :
    index = other := by
  cases index with
  | none =>
    cases other with
    | none => rfl
    | some => cases h
  | some index =>
    cases other with
    | none => cases h
    | some other =>
      have digits := List.append_cancel_right (List.cons.inj h).2
      rw [Nat.toList_repr, Nat.toList_repr] at digits
      have numbers := congrArg (Nat.ofDigitChars 10 · 0) digits
      simp only [Nat.ofDigitChars_ten_toDigits] at numbers
      rw [numbers]

/-- A step that starts with a word can be read back. -/
theorem accessorText_inj {key key' : String} {index index' : Option Nat} (word : isWord key)
    (word' : isWord key') (h : accessorText key index = accessorText key' index') :
    key = key' ∧ index = index' := by
  have keys : key = key' := by
    rw [← String.toList_inj, ← takeWhile_accessorText word index, h,
      takeWhile_accessorText word' index']
  subst keys
  have texts := congrArg String.toList h
  rw [toList_accessorText, toList_accessorText] at texts
  exact ⟨rfl, placeText_inj (List.append_cancel_left texts)⟩

/-- The characters of a step: those of a name and of a place. -/
theorem mem_accessorText {key : String} (word : isWord key) {index : Option Nat} {c : Char}
    (hm : c ∈ (accessorText key index).toList) :
    c.isAlpha ∨ c.isDigit ∨ c = '[' ∨ c = ']' := by
  obtain ⟨-, letters⟩ := Bool.and_eq_true_iff.mp word
  rw [toList_accessorText] at hm
  rcases List.mem_append.mp hm with hkey | hp
  · exact .inl (List.all_eq_true.mp letters c hkey)
  · cases index with
    | none => cases hp
    | some index =>
      rcases List.mem_cons.mp hp with rfl | hp
      · exact .inr (.inr (.inl rfl))
      · rcases List.mem_append.mp hp with digit | last
        · rw [Nat.toList_repr] at digit
          exact .inr (.inl (Nat.isDigit_of_mem_toDigits (by omega) (Nat.le_refl 10) digit))
        · exact .inr (.inr (.inr (List.mem_singleton.mp last)))

end Words

section Joins

/-- The steps of an address as a path writes them, joined by dots. -/
def addressText (steps : List (String × Option Nat)) : String :=
  ".".intercalate (steps.map fun step => accessorText step.1 step.2)

variable {steps other : List (String × Option Nat)}

theorem toList_addressText (steps : List (String × Option Nat)) :
    (addressText steps).toList =
      ['.'].intercalate (steps.map fun step => (accessorText step.1 step.2).toList) := by
  rw [addressText, String.toList_intercalate, List.map_map]
  rfl

theorem mem_intercalate {parts : List (List Char)} {separator c : Char}
    (hm : c ∈ [separator].intercalate parts) : c = separator ∨ ∃ part ∈ parts, c ∈ part := by
  induction parts with
  | nil => cases hm
  | cons part rest ih =>
    cases rest with
    | nil =>
      rw [List.intercalate_singleton] at hm
      exact .inr ⟨part, List.mem_cons_self, hm⟩
    | cons next rest =>
      rw [List.intercalate_cons_cons, List.mem_append, List.mem_append] at hm
      rcases hm with (hpart | between) | hrest
      · exact .inr ⟨part, List.mem_cons_self, hpart⟩
      · exact .inl (List.mem_singleton.mp between)
      · refine (ih hrest).imp_right fun ⟨other, hp, ho⟩ => ?_
        exact ⟨other, List.mem_cons_of_mem _ hp, ho⟩

theorem mem_addressText (words : ∀ step ∈ steps, isWord step.1) {c : Char}
    (hm : c ∈ (addressText steps).toList) :
    c.isAlpha ∨ c.isDigit ∨ c = '[' ∨ c = ']' ∨ c = '.' := by
  rw [toList_addressText] at hm
  rcases mem_intercalate hm with rfl | ⟨part, hp, hpart⟩
  · exact .inr (.inr (.inr (.inr rfl)))
  · obtain ⟨step, hs, rfl⟩ := List.mem_map.mp hp
    have := mem_accessorText (words step hs) hpart
    tauto

theorem splitOn_addressText (words : ∀ step ∈ steps, isWord step.1) (nonempty : steps ≠ []) :
    (addressText steps).toList.splitOn '.' =
      steps.map fun step => (accessorText step.1 step.2).toList := by
  rw [toList_addressText, List.splitOn_intercalate _ _ (by simpa using nonempty)]
  intro part hp dot
  obtain ⟨step, hs, rfl⟩ := List.mem_map.mp hp
  exact absurd (mem_accessorText (words step hs) dot) (by decide)

theorem isEmpty_addressText_iff (words : ∀ step ∈ steps, isWord step.1) :
    (addressText steps).isEmpty ↔ steps = [] := by
  constructor
  · intro empty
    by_contra nonempty
    have parts := splitOn_addressText words nonempty
    rw [String.isEmpty_iff.mp empty] at parts
    cases steps with
    | nil => exact nonempty rfl
    | cons step rest =>
      have word := words step List.mem_cons_self
      have nameless : (accessorText step.1 step.2).toList = [] := (List.cons.inj parts).1.symm
      have key := takeWhile_accessorText word step.2
      rw [nameless] at key
      rw [isWord, ← key] at word
      cases word
  · rintro rfl
    rfl

theorem map_accessorText_inj (words : ∀ step ∈ steps, isWord step.1)
    (words' : ∀ step ∈ other, isWord step.1)
    (h : steps.map (fun step => (accessorText step.1 step.2).toList) =
      other.map fun step => (accessorText step.1 step.2).toList) : steps = other := by
  induction steps generalizing other with
  | nil => exact (List.map_eq_nil_iff.mp h.symm).symm
  | cons step rest ih =>
    cases other with
    | nil => cases h
    | cons step' rest' =>
      obtain ⟨word, words⟩ := List.forall_mem_cons.mp words
      obtain ⟨word', words'⟩ := List.forall_mem_cons.mp words'
      obtain ⟨first, others⟩ := List.cons.inj h
      obtain ⟨key, place⟩ := accessorText_inj word word' (String.toList_inj.mp first)
      rw [Prod.ext key place, ih words words' others]

/-- The steps of an address can be read back. -/
theorem addressText_inj (words : ∀ step ∈ steps, isWord step.1)
    (words' : ∀ step ∈ other, isWord step.1) (h : addressText steps = addressText other) :
    steps = other := by
  by_cases empty : steps = []
  · rw [empty, eq_comm, ← isEmpty_addressText_iff words', ← h, isEmpty_addressText_iff words, empty]
  · have empty' : other ≠ [] := by
      rwa [ne_eq, ← isEmpty_addressText_iff words', ← h, isEmpty_addressText_iff words]
    have parts := splitOn_addressText words empty
    rw [h, splitOn_addressText words' empty'] at parts
    exact map_accessorText_inj words words' parts.symm

end Joins

namespace Node

theorem size_lt_of_edge {node : Node ι} {edge : Edge (Node ι)} (he : edge ∈ node.edges) :
    edge.child.size < node.size := by
  obtain ⟨before, after, eq⟩ := List.append_of_mem (child_mem_of_edge he)
  rw [size_eq node, eq, List.map_append, List.map_cons, List.sum_append, List.sum_cons]
  omega

/-- The keys of the edges of a node are among the fields of its type. -/
theorem exists_field_of_edge {node : Node ι} {fields : List (String × Arity)}
    (hl : node.kind.fields? = some fields) {edge : Edge (Node ι)} (he : edge ∈ node.edges) :
    ∃ field ∈ fields, field.1 = edge.key := by
  obtain ⟨field, hlisted, hfield⟩ := List.mem_flatMap.mp he
  obtain ⟨entry, -, rfl⟩ := List.mem_map.mp hfield
  rw [Node.listed, hl] at hlisted
  obtain ⟨known, hfields, hf⟩ := List.mem_filterMap.mp hlisted
  have hn := List.find?_some hf
  rw [Bool.and_eq_true_iff, beq_iff_eq] at hn
  exact ⟨known, hfields, hn.1.symm⟩

/-- The paths of the nodes from a node down: each child adds its type, and the edge to it as a path
writes a step. -/
def paths (node : Node ι) (types steps : List String) : List NodePath :=
  ⟨types, steps⟩ :: node.edges.attach.flatMap fun ⟨edge, isEdge⟩ =>
    have : edge.child.size < node.size := size_lt_of_edge isEdge
    edge.child.paths (types ++ [edge.child.typeName]) (steps ++ [accessorText edge.key edge.index])
termination_by node.size

theorem paths_eq (node : Node ι) (types steps : List String) :
    node.paths types steps = ⟨types, steps⟩ :: node.edges.flatMap fun edge =>
      edge.child.paths (types ++ [edge.child.typeName])
        (steps ++ [accessorText edge.key edge.index]) := by
  rw [paths, List.flatMap_subtype (fun _ _ => rfl), List.unattach_attach]

/-- What a line shows of the text of the fields, which the root has none of. -/
def shownFields (fields : Option String) : String :=
  if fields.getD "" = "" then "(root)" else fields.getD ""

/-- The lines of the nodes from a node down: the text of the fields, a tab, and the text of the
types. Each child adds a step after a dot, and its type after the separator. -/
def listing (separator : String) (node : Node ι) (fields : Option String) (types : String) :
    List String :=
  (shownFields fields ++ "\t" ++ types) ::
    node.edges.attach.flatMap fun ⟨edge, isEdge⟩ =>
      have : edge.child.size < node.size := size_lt_of_edge isEdge
      let step := accessorText edge.key edge.index
      edge.child.listing separator (some (fields.elim step (· ++ "." ++ step)))
        (types ++ separator ++ edge.child.typeName)
termination_by node.size

theorem listing_eq (separator : String) (node : Node ι) (fields : Option String)
    (types : String) : node.listing separator fields types =
      (shownFields fields ++ "\t" ++ types) ::
        node.edges.flatMap fun edge => edge.child.listing separator
          (some (fields.elim (accessorText edge.key edge.index)
            (· ++ "." ++ accessorText edge.key edge.index)))
          (types ++ separator ++ edge.child.typeName) := by
  rw [listing, List.flatMap_subtype (fun _ _ => rfl), List.unattach_attach]

/-- The text of the steps from the root on, if there are any. -/
def fieldText (steps : List String) : Option String :=
  if steps = [] then none else some (".".intercalate steps)

theorem fieldText_concat (steps : List String) (step : String) :
    fieldText (steps ++ [step]) = some ((fieldText steps).elim step (· ++ "." ++ step)) := by
  unfold fieldText
  rw [if_neg (by simp)]
  split
  next hs => rw [hs, List.nil_append, String.intercalate_singleton, Option.elim_none]
  next hs =>
    rw [String.intercalate_append_of_ne_nil hs (by simp), String.intercalate_singleton,
      Option.elim_some]

/-- The lines that are extended as texts are those of the paths that are extended as lists. -/
theorem map_line_paths (separator : String) (node : Node ι) {types : List String}
    (ht : types ≠ []) (steps : List String) :
    (node.paths types steps).map (·.line separator) =
      node.listing separator (fieldText steps) (separator.intercalate types) := by
  induction node using Node.induction generalizing types steps with
  | step node ih =>
    rw [paths_eq, listing_eq, List.map_cons, List.map_flatMap]
    have hl : NodePath.line ⟨types, steps⟩ separator =
        shownFields (fieldText steps) ++ "\t" ++ separator.intercalate types := by
      have hf : (fieldText steps).getD "" = ".".intercalate steps := by
        unfold fieldText
        split
        next hs => rw [hs, String.intercalate_nil, Option.getD_none]
        next => rw [Option.getD_some]
      rw [shownFields, hf, NodePath.line, NodePath.arrayPath, NodePath.astPath]
      simp only [String.isEmpty_iff]
    rw [hl]
    refine congrArg (_ :: ·) (List.flatMap_congr fun edge he => ?_)
    rw [ih edge.child (child_mem_of_edge he) (by simp), fieldText_concat,
      String.intercalate_append_of_ne_nil ht (by simp), String.intercalate_singleton]

end Node

/-- What a line shows of the fields of a path. -/
def fieldColumn (line : String) : String :=
  String.ofList (line.toList.takeWhile (· ≠ '\t'))

namespace Tree

variable {tree : Tree}

/-- The ways up from the nodes below a node are the ways down to them. -/
theorem paths_of_mem (hr : tree.Regular) {node : Node Nat}
    (hm : node ∈ tree.root.preorder) :
    node.paths (tree.annotate.path node.id).typePath (tree.annotate.path node.id).fieldPath =
      node.preorder.map fun below => tree.annotate.path below.id := by
  induction node using Node.induction with
  | step node ih =>
    rw [Node.paths_eq, Node.preorder_eq, List.map_cons, List.map_flatMap,
      ← Node.map_child_edges (hr node hm), List.flatMap_map]
    refine congrArg (_ :: ·) (List.flatMap_congr fun edge he => ?_)
    have hc := Node.child_mem_of_edge he
    have ht := Node.mem_preorder_trans hm (Node.child_mem_preorder hc)
    have hl : tree.annotate.link? edge.child.id = some ⟨node.id, edge.key, edge.index⟩ :=
      (link?_eq_some_iff_edge hr).mpr ⟨node, node?_id hm, edge.child, he, rfl⟩
    have below := path_of_link hr hl
    rw [accessor_eq, typeName_annotate (node?_id ht)] at below
    rw [← ih edge.child hc ht, below]
    rfl

theorem exists_address_of_regular (hr : tree.Regular) {id : Nat} (hk : id < tree.size) :
    ∃ steps, tree.annotate.Address id steps := by
  refine ancestry_induction hr (motive := fun id => ∃ steps, tree.annotate.Address id steps)
    ⟨[], .root (link?_root hr)⟩ (fun id link hl above => ?_) hk
  obtain ⟨steps, above⟩ := above
  exact ⟨_, .child hl above⟩

theorem fieldPath_of_address (hr : tree.Regular) {id : Nat}
    {steps : List (String × Option Nat)} (hk : id < tree.size)
    (address : tree.annotate.Address id steps) :
    (tree.annotate.path id).fieldPath = steps.map fun step => accessorText step.1 step.2 := by
  induction address with
  | root top =>
    rw [(link?_eq_none_iff hr hk).mp top, path_root hr]
    rfl
  | child hl above ih =>
    rw [path_of_link hr hl, List.map_append, ← ih (link_bounds hr hl).2]
    exact congrArg (_ ++ [·]) (accessor_eq _)

/-- The line of a node starts with its address, or with the word for the root. -/
theorem fieldColumn_line {path : NodePath} {steps : List (String × Option Nat)}
    (words : ∀ step ∈ steps, isWord step.1)
    (hs : path.fieldPath = steps.map fun step => accessorText step.1 step.2)
    (separator : String) :
    fieldColumn (path.line separator) = if steps = [] then "(root)" else addressText steps := by
  have array : path.arrayPath = addressText steps := congrArg (String.intercalate ".") hs
  have column (first rest : String) (hf : ∀ c ∈ first.toList, c ≠ '\t') :
      fieldColumn (first ++ "\t" ++ rest) = first := by
    have text : (first ++ "\t" ++ rest).toList = first.toList ++ '\t' :: rest.toList := by
      simp [String.toList_append]
    rw [fieldColumn, text, List.takeWhile_append_of_pos (by simpa using hf),
      List.takeWhile_cons_of_neg (by decide), List.append_nil, String.ofList_toList]
  rw [NodePath.line, array]
  simp only [isEmpty_addressText_iff words]
  split
  · exact column _ _ (by simp)
  · refine column _ _ fun c hm tab => ?_
    subst tab
    exact absurd (mem_addressText words hm) (by decide)

section Known

variable (hr : tree.Regular)
  (hk : ∀ node ∈ tree.root.preorder, ∃ fields, node.kind.fields? = some fields)

include hr hk

theorem isWord_of_address {id : Nat} {steps : List (String × Option Nat)}
    (address : tree.annotate.Address id steps) : ∀ step ∈ steps, isWord step.1 := by
  induction address with
  | root => exact fun _ hm => nomatch hm
  | child hlinked above ih =>
    obtain ⟨node, hm, edge, he, -, -, rfl⟩ := exists_edge_of_link hr hlinked
    obtain ⟨fields, hl⟩ := hk node hm
    obtain ⟨field, hfields, key⟩ := Node.exists_field_of_edge hl he
    have word := Kind.isWord_of_fields? hl hfields
    rw [key] at word
    exact List.forall_mem_append.mpr ⟨ih, List.forall_mem_singleton.mpr word⟩

theorem nodup_fields_of_known {node : Node Nat} (hm : node ∈ tree.root.preorder) :
    (node.fields.map Field.name).Nodup := by
  obtain ⟨fields, hl⟩ := hk node hm
  have names : node.fields.map Field.name = node.signature.map Prod.fst := by
    rw [Node.signature, List.map_map]
    rfl
  rw [names, hr node hm fields hl]
  exact Kind.fields?_nodup hl

/-- Two nodes whose lines start alike are the same. -/
theorem eq_of_fieldColumn_eq {id other : Nat} (inside : id < tree.size)
    (inside' : other < tree.size) {separator : String}
    (h : fieldColumn ((tree.annotate.path id).line separator) =
      fieldColumn ((tree.annotate.path other).line separator)) : id = other := by
  obtain ⟨steps, address⟩ := exists_address_of_regular hr inside
  obtain ⟨steps', address'⟩ := exists_address_of_regular hr inside'
  have words := isWord_of_address hr hk address
  have words' := isWord_of_address hr hk address'
  rw [fieldColumn_line words (fieldPath_of_address hr inside address),
    fieldColumn_line words' (fieldPath_of_address hr inside' address')] at h
  have hroot {steps : List (String × Option Nat)} (words : ∀ step ∈ steps, isWord step.1) :
      addressText steps ≠ "(root)" := by
    intro same
    have bracket : '(' ∈ (addressText steps).toList := by
      rw [same]
      decide
    exact absurd (mem_addressText words bracket) (by decide)
  have same : steps = steps' := by
    split at h <;> split at h
    next empty empty' => rw [empty, empty']
    next => exact absurd h.symm (hroot words')
    next => exact absurd h (hroot words)
    next => exact addressText_inj words words' h
  subst same
  exact eq_of_address_of_nodup hr (fun _ hm => nodup_fields_of_known hr hk hm)
    inside inside' address address'

end Known

/-- Adds the line of a node, whose path is found from the node up. -/
def addLine (tree : Tree) (options : RenderOptions) (lines : List String) (node : Node Nat) :
    List String :=
  lines ++ [(tree.annotate.path node.id).line options.pathSeparator]

theorem foldl_addLine (tree : Tree) (options : RenderOptions) :
    tree.root.preorder.foldl (tree.addLine options) [] = tree.pathLines options := by
  have added (nodes : List (Node Nat)) (lines : List String) :
      nodes.foldl (tree.addLine options) lines = lines ++
        nodes.map fun node => (tree.annotate.path node.id).line options.pathSeparator := by
    induction nodes generalizing lines with
    | nil => exact (List.append_nil _).symm
    | cons node rest ih => rw [List.foldl_cons, ih, addLine, List.append_assoc]; rfl
  exact (added _ []).trans (List.nil_append _)

/-- Where every type is known, the starts of the lines are all different. -/
theorem nodup_fieldColumns (hr : tree.Regular)
    (hk : ∀ node ∈ tree.root.preorder, ∃ fields, node.kind.fields? = some fields)
    (options : RenderOptions) : ((tree.pathLines options).map fieldColumn).Nodup := by
  rw [pathLines, List.map_map]
  refine (List.Nodup.of_map _ tree.nodup_ids).map_on fun node hmem other hmem' same => ?_
  have ids := eq_of_fieldColumn_eq hr hk (id_lt_size hmem) (id_lt_size hmem') same
  have hf := node?_id hmem
  rw [ids, node?_id hmem'] at hf
  exact (Option.some.inj hf).symm

theorem head_fieldColumns (hr : tree.Regular) (options : RenderOptions) :
    ((tree.pathLines options).map fieldColumn)[0]? = some "(root)" := by
  have root : (tree.annotate.path tree.root.id).fieldPath =
      ([] : List (String × Option Nat)).map fun step => accessorText step.1 step.2 := by
    rw [path_root hr, List.map_nil]
  rw [pathLines, Node.preorder_eq_cons, List.map_cons, List.map_cons, List.getElem?_cons_zero,
    fieldColumn_line (List.forall_mem_nil _) root, if_pos rfl]

/-- The loop that lists the paths of a lowered tree ends with one line for each node, and the lines
are those of the recursion down from the root, as every way up ends at the root and spells the way
down. Where no type is unknown, no two lines start with the same fields, and only the first one
with the word for the root. -/
theorem pathLines_eq_listing {value : Json} (h : Tree.ofJson value = .ok tree)
    (options : RenderOptions) :
    (∀ rounds last, Walk.run? tree (tree.addLine options) rounds (.start tree []) = some last ∧
        last.pending = [] ↔
      rounds = tree.size ∧
        last = ⟨tree.root.preorder.map Node.id, [], tree.pathLines options⟩) ∧
    (tree.pathLines options).length = tree.size ∧
    (∀ id < tree.size,
      tree.annotate.strictClimb tree.size id {} = some (tree.annotate.path id)) ∧
    (tree.root.preorder.map fun node => tree.annotate.path node.id) =
      tree.root.paths [tree.root.typeName] [] ∧
    tree.pathLines options =
      tree.root.listing options.pathSeparator none tree.root.typeName ∧
    ((∀ node ∈ tree.root.preorder, ∀ name, node.kind ≠ .unknown name) →
      ((tree.pathLines options).map fieldColumn).Nodup ∧
        ∀ place, ((tree.pathLines options).map fieldColumn)[place]? = some "(root)" ↔
          place = 0) := by
  have hr := regular_of_ofJson h
  have length : (tree.pathLines options).length = tree.size := by
    rw [pathLines, List.length_map, ← tree.root.postorder_perm_preorder.length_eq,
      Node.length_postorder, tree.size_eq]
  have paths := paths_of_mem hr tree.root.self_mem_preorder
  rw [path_root hr] at paths
  refine ⟨fun rounds last => ?_, length, fun id hk => ?_, paths.symm, ?_, fun hn => ?_⟩
  · rw [Walk.finished_iff hr, foldl_addLine]
  · exact strictClimb_eq hr hk (Nat.le_add_left _ _) {}
  · have lines := tree.root.map_line_paths options.pathSeparator
      (List.cons_ne_nil tree.root.typeName []) []
    rw [paths, List.map_map, String.intercalate_singleton] at lines
    exact lines
  · have hk : ∀ node ∈ tree.root.preorder, ∃ fields, node.kind.fields? = some fields :=
      fun node hm => Kind.exists_fields? (hn node hm)
    have hd := nodup_fieldColumns hr hk options
    have head := head_fieldColumns hr options
    refine ⟨hd, fun place => ⟨fun hf => ?_, fun first => first ▸ head⟩⟩
    obtain ⟨inside, -⟩ := List.getElem?_eq_some_iff.mp hf
    exact (List.getElem?_inj inside hd).mp (hf.trans head.symm)

def holeSample : Json :=
  .ofNode "Program" [("body", .array [.ofNode "ExpressionStatement"
    [("expression", .ofNode "ArrayExpression" [("elements", .array
      [.ofNode "Identifier" [("name", .string "a")], .null,
        .ofNode "Identifier" [("name", .string "b")]])])]])]

def holeLines : List String :=
  ["(root)\tProgram",
    "body[0]\tProgram > ExpressionStatement",
    "body[0].expression\tProgram > ExpressionStatement > ArrayExpression",
    "body[0].expression.elements[0]\tProgram > ExpressionStatement > ArrayExpression > Identifier",
    "body[0].expression.elements[2]\tProgram > ExpressionStatement > ArrayExpression > Identifier"]

theorem pathLines_eq_listing_of_holeSample :
    ∃ tree, ofJson holeSample = .ok tree ∧
      tree.pathLines {} = tree.root.listing " > " none "Program" ∧
      tree.pathLines {} = holeLines ∧
      ((tree.pathLines {}).map fieldColumn).Nodup ∧
      ∃ last, Walk.run? tree (tree.addLine {}) 5 (.start tree []) = some last ∧
        last.pending = [] ∧ last.state = tree.pathLines {} := by
  obtain ⟨tree, hj, facts⟩ := exists_of_ofJson
    (f := fun tree => (tree.size, tree.root.typeName, tree.pathLines {},
      tree.root.preorder.all (·.kind.fields?.isSome)))
    (b := (5, "Program", holeLines, true))
    (by decide +kernel : (ofJson holeSample).toOption.map _ = some _)
  simp only [Prod.mk.injEq, List.all_eq_true] at facts
  obtain ⟨size, hn, hshown, hk⟩ := facts
  obtain ⟨loop, -, -, -, lines, hd⟩ := pathLines_eq_listing hj {}
  obtain ⟨ends, he⟩ := (loop 5 _).mpr ⟨size.symm, rfl⟩
  rw [hn] at lines
  refine ⟨tree, hj, lines, hshown, (hd fun node hm name hu => ?_).1,
    _, ends, he, rfl⟩
  have hl := hk node hm
  rw [hu] at hl
  cases hl

end Tree

end SyntaxMarkup
