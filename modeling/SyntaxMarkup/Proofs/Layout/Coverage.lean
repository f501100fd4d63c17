import SyntaxMarkup.Proofs.Layout.Uses
import Mathlib.Data.List.Forall2

namespace SyntaxMarkup

def Kind.isIdentifier : Kind → Bool
  | identifier _ => true
  | _ => false

def Node.isNamedFunction {ι : Type} (node : Node ι) : Bool :=
  match node.kind, node.slots with
  | .functionExpression _ _, .maybe (some _) :: _ => true
  | _, _ => false

namespace Kind

def importTypes : List Kind :=
  [importDefaultSpecifier, importNamespaceSpecifier, importSpecifier]

/-- Whether the text of a type has room for all children. -/
def isComplete {ι : Type} : Kind → List (Slot (Node ι)) → Bool
  | importDeclaration, .many specifiers :: _ => specifiers.all (importTypes.contains ·.kind)
  | exportNamedDeclaration, [.maybe (some _), .many specifiers, .maybe source] =>
    specifiers.isEmpty && source.isNone
  | templateLiteral, [.many quasis, .many expressions] => expressions.length ≤ quasis.length
  | methodDefinition _ _ _, [_, .one value] => !value.isNamedFunction
  | property .init false true _, [.one key, .one value] =>
    key.kind.isIdentifier && value.named.kind.isIdentifier
  | property .init false false _, _ => true
  | property _ _ _ _, [_, .one value] => !value.isNamedFunction
  | _, _ => true

end Kind

namespace Use

def Of : Use → Node Nat → Prop
  | write part _, child => part = child.part
  | share node _, child => node = child.id

/-- Whether the nodes whose units are shared are identifiers met before. -/
def Grounded (before : List (Node Nat)) : List Use → Prop
  | [] => True
  | write part _ :: rest => Grounded (part.node :: before) rest
  | share _ target :: rest =>
    (∃ node ∈ before, node.named.id = target ∧ node.named.kind.isIdentifier) ∧
      Grounded before rest

theorem grounded_written (before : List (Node Nat)) (parts : List Part) :
    Grounded before (Piece.written parts) := by
  induction parts generalizing before with
  | nil => trivial
  | cons part rest ih => exact ih _

/-- Whether nothing of a child is lost by a use: a method gets a function without a name, and the
unit of another node is shared by an identifier. -/
def Whole : Use → Node Nat → Prop
  | write part method, child => part = child.part ∧ (method = true → child.isNamedFunction = false)
  | share node _, child => node = child.id ∧ child.kind.isIdentifier = true

/-- The uses are of different children. If the node is complete, then they are of all children,
and nothing of these is lost. -/
def Cover (uses : List Use) (children : List (Node Nat)) (complete : Prop) : Prop :=
  ∃ used lost, List.Forall₂ Of uses used ∧ (used ++ lost).Perm children ∧
    (complete → lost = [] ∧ Grounded [] uses ∧ List.Forall₂ Whole uses used)

theorem Cover.imp {uses : List Use} {children : List (Node Nat)} {complete stronger : Prop}
    (cover : Cover uses children complete) (h : stronger → complete) :
    Cover uses children stronger := by
  obtain ⟨used, lost, each, perm, all⟩ := cover
  exact ⟨used, lost, each, perm, fun complete => all (h complete)⟩

theorem cover_of_perm {children : List (Node Nat)} {complete : Prop} {parts : List Part}
    (lost : List (Node Nat)) (perm : (parts ++ lost.map Node.part).Perm (children.map Node.part))
    (none : complete → lost = []) : Cover (Piece.written parts) children complete := by
  have ho : ∀ part ∈ parts, part = part.node.part := by
    intro part hm
    obtain ⟨child, -, rfl⟩ := List.mem_map.mp (perm.subset (List.mem_append_left _ hm))
    rfl
  have whole : List.Forall₂ Whole (Piece.written parts) (parts.map Computed.node) := by
    rw [Piece.written, List.forall₂_map_left_iff, List.forall₂_map_right_iff]
    exact List.forall₂_same.mpr fun part hm => ⟨ho part hm, fun method => by cases method⟩
  have nodes := perm.map Computed.node
  simp only [List.map_append, List.map_map, Function.comp_def, Node.node_part,
    List.map_id'] at nodes
  refine ⟨_, lost, ?_, nodes, fun complete => ⟨none complete, grounded_written _ _, whole⟩⟩
  refine whole.imp fun use child h => ?_
  cases use with
  | write => exact h.1
  | share => exact h.1

theorem cover_written (children : List (Node Nat)) (complete : Prop) :
    Cover (Piece.written (children.map Node.part)) children complete :=
  cover_of_perm [] (by simp) fun _ => rfl

end Use

namespace Template

open Piece Use

variable {slots : List (Slot (Node Nat))}

theorem children_parts (slots : List (Slot (Node Nat))) :
    (slots.map (·.map Node.part)).flatMap Slot.children =
      (slots.flatMap Slot.children).map Node.part := by
  simp [List.flatMap_map, List.map_flatMap, Slot.children_map]

theorem links_interleave (quasis expressions : List Part) :
    ∃ order, links (interleave quasis expressions) = plains order ∧
      order.Perm (quasis ++ expressions.take quasis.length) := by
  induction quasis generalizing expressions with
  | nil => exact ⟨[], rfl, .refl _⟩
  | cons quasi rest ih =>
    cases expressions with
    | nil =>
      obtain ⟨order, links, perm⟩ := ih []
      refine ⟨quasi :: order, by simp [interleave, links], ?_⟩
      simpa using perm
    | cons expression others =>
      obtain ⟨order, links, perm⟩ := ih others
      refine ⟨quasi :: expression :: order, by simp [interleave, links], ?_⟩
      refine List.Perm.cons _ ((perm.cons _).trans ?_)
      exact List.perm_middle.symm

theorem links_importClause (parts : List Part) :
    links (importClause parts) =
      plains (specifiers .importDefaultSpecifier parts ++
        (specifiers .importNamespaceSpecifier parts ++ specifiers .importSpecifier parts)) := by
  have inside (parts : List Part) :
      (if parts.isEmpty then [] else [lit "\x7b " ++ commas parts ++ lit " \x7d"]).flatMap links =
        plains parts := by
    cases parts with
    | nil => rfl
    | cons part rest => simp
  unfold importClause
  dsimp only
  rw [links_separated (links_lit _), List.flatMap_append, List.flatMap_map, inside]
  simp [flatMap_singleton_eq_plains]

theorem links_importDeclaration (parts : List Part) (source : Part) :
    links (pieces .importDeclaration [.many parts, .one source]) =
      plains (specifiers .importDefaultSpecifier parts ++
        (specifiers .importNamespaceSpecifier parts ++ specifiers .importSpecifier parts) ++
          [source]) := by
  have clause : links (if parts.isEmpty then [] else importClause parts ++ lit " from ") =
      links (importClause parts) := by
    cases parts with
    | nil => rfl
    | cons => simp
  simp only [pieces, links_append, links_lit, links_plain, clause, links_importClause,
    List.nil_append, List.append_nil, plains_append]
  rfl

theorem specifiers_perm (parts : List Part) :
    (specifiers .importDefaultSpecifier parts ++ (specifiers .importNamespaceSpecifier parts ++
      specifiers .importSpecifier parts) ++
        parts.filter (!Kind.importTypes.contains ·.node.kind)).Perm parts := by
  induction parts with
  | nil => rfl
  | cons part rest ih =>
    have next := ih.cons part
    simp only [specifiers, List.append_assoc, List.filter_cons] at next ⊢
    by_cases hd : part.node.kind = .importDefaultSpecifier
    · simpa [hd, Kind.importTypes] using next
    by_cases hspace : part.node.kind = .importNamespaceSpecifier
    · simpa [hspace, Kind.importTypes] using List.perm_middle.trans next
    by_cases hn : part.node.kind = .importSpecifier
    · rw [← List.append_assoc] at next ⊢
      simpa [hn, Kind.importTypes] using List.perm_middle.trans next
    · rw [← List.append_assoc, ← List.append_assoc] at next ⊢
      have other : part.node.kind ∉ Kind.importTypes := by
        simp [Kind.importTypes, hd, hspace, hn]
      simpa [hd, hspace, hn, other] using List.perm_middle.trans next

theorem cover_method (computed : Bool) (key value : Node Nat) {complete : Prop}
    (unnamed : complete → value.isNamedFunction = false) :
    Cover (uses (method computed key.part value.part)) [key, value] complete := by
  have both : ∃ rest, uses (method computed key.part value.part) =
      [.write key.part false, .write value.part rest] := by
    rw [uses_eq, links_method]
    split
    · exact ⟨true, rfl⟩
    · exact ⟨false, rfl⟩
  obtain ⟨rest, eq⟩ := both
  rw [eq]
  exact ⟨[key, value], [], .cons rfl (.cons rfl .nil), .refl _, fun complete =>
    ⟨rfl, trivial, .cons ⟨rfl, nofun⟩ (.cons ⟨rfl, fun _ => unnamed complete⟩ .nil)⟩⟩

theorem cover_renamed (name other : Node Nat) (complete : Prop) :
    Cover (uses (renamed name.part other.part)) [name, other] complete := by
  unfold renamed
  split
  next same =>
    obtain ⟨hn, nameIs, otherIs⟩ : name.named = name ∧ name.kind.isIdentifier = true ∧
        other.kind.isIdentifier = true := by
      simp only [Node.node_part, Node.sameName] at same
      split at same
      next eq eq' => simp [Node.named, eq, eq', Kind.isIdentifier]
      next => cases same
    refine ⟨[name, other], [], .cons rfl (.cons rfl .nil), .refl _, fun _ => ⟨rfl, ?_, ?_⟩⟩
    · exact ⟨⟨name, List.mem_cons_self, congrArg Node.id hn, by rwa [hn]⟩, trivial⟩
    · exact .cons ⟨rfl, nofun⟩ (.cons ⟨rfl, otherIs⟩ .nil)
  next =>
    rw [uses_eq_written [name.part, other.part] (by simp)]
    exact cover_written [name, other] complete

theorem cover_shorthand (key value : Node Nat) {complete : Prop}
    (identifiers : complete → key.kind.isIdentifier = true ∧ value.named.kind.isIdentifier = true) :
    Cover (uses (plain value.part ++ [.share key.id value.named.id])) [key, value] complete := by
  refine ⟨[value, key], [], .cons rfl (.cons rfl .nil), .swap _ _ _, fun complete => ⟨rfl, ?_, ?_⟩⟩
  · exact ⟨⟨value, List.mem_cons_self, rfl, (identifiers complete).2⟩, trivial⟩
  · exact .cons ⟨rfl, nofun⟩ (.cons ⟨rfl, (identifiers complete).1⟩ .nil)

theorem cover_templateLiteral (quasis expressions : List (Node Nat)) :
    Cover (uses (pieces .templateLiteral [.many (quasis.map Node.part),
      .many (expressions.map Node.part)])) (quasis ++ expressions)
      (Kind.templateLiteral.isComplete [.many quasis, .many expressions]) := by
  obtain ⟨order, eq, perm⟩ := links_interleave (quasis.map Node.part) (expressions.map Node.part)
  rw [uses_eq_written order (by simp [pieces, eq])]
  refine cover_of_perm (expressions.drop quasis.length) ?_ fun hcom => ?_
  · refine (perm.append_right _).trans (List.Perm.of_eq ?_)
    rw [List.length_map, List.append_assoc, ← List.map_take, ← List.map_append,
      List.take_append_drop, List.map_append]
  · exact List.drop_eq_nil_of_le (by simpa [Kind.isComplete] using hcom)

theorem cover_importDeclaration (specifiers : List (Node Nat)) (source : Node Nat) :
    Cover (uses (pieces .importDeclaration [.many (specifiers.map Node.part), .one source.part]))
      (specifiers ++ [source])
      (Kind.importDeclaration.isComplete [.many specifiers, .one source]) := by
  have order := specifiers_perm (specifiers.map Node.part)
  rw [List.filter_map] at order
  rw [uses_eq_written _ (links_importDeclaration _ _)]
  refine cover_of_perm (specifiers.filter (!Kind.importTypes.contains ·.kind)) ?_ ?_
  · rw [List.append_assoc, List.map_append]
    refine (List.perm_append_comm.append_left _).trans ?_
    rw [← List.append_assoc]
    exact order.append_right _
  · intro hcom
    simpa [Kind.isComplete] using hcom

theorem cover_exportNamedDeclaration (declaration : Option (Node Nat))
    (specifiers : List (Node Nat)) (source : Option (Node Nat)) :
    Cover (uses (pieces .exportNamedDeclaration [.maybe (declaration.map Node.part),
      .many (specifiers.map Node.part), .maybe (source.map Node.part)]))
      (declaration.toList ++ (specifiers ++ source.toList))
      (Kind.exportNamedDeclaration.isComplete
        [.maybe declaration, .many specifiers, .maybe source]) := by
  cases declaration with
  | none =>
    have all := cover_written (specifiers ++ source.toList)
      (Kind.exportNamedDeclaration.isComplete [.maybe none, .many specifiers, .maybe source])
    rw [uses_eq_written (specifiers.map Node.part ++ (source.map Node.part).toList)
      (by simp [pieces]), Option.toList_map, ← List.map_append]
    exact all
  | some declaration =>
    rw [uses_eq_written [declaration.part] (by simp [pieces])]
    refine cover_of_perm (specifiers ++ source.toList) ?_ fun hcom => ?_
    · simp
    · simpa [Kind.isComplete] using hcom

theorem links_methodDefinition (kind : MethodKind) (computed static : Bool) (key value : Part) :
    links (pieces (.methodDefinition kind computed static) [.one key, .one value]) =
      links (method computed key value) := by
  simp [pieces]

theorem links_property {kind : PropertyKind} {isMethod : Bool}
    (special : ¬(kind = .init ∧ isMethod = false)) (shorthand computed : Bool) (key value : Part) :
    links (pieces (.property kind isMethod shorthand computed) [.one key, .one value]) =
      links (method computed key value) := by
  have hm : pieces (.property kind isMethod shorthand computed) [.one key, .one value] =
      litIf (kind == .getter) "get " ++ litIf (kind == .setter) "set " ++
        method computed key value := by
    cases kind <;> cases isMethod <;> first | rfl | exact absurd ⟨rfl, rfl⟩ special
  simp [hm]

theorem cover_methodDefinition (kind : MethodKind) (computed static : Bool)
    (key value : Node Nat) :
    Cover (uses (pieces (.methodDefinition kind computed static) [.one key.part, .one value.part]))
      [key, value]
      ((Kind.methodDefinition kind computed static).isComplete [.one key, .one value]) := by
  rw [uses_eq, links_methodDefinition, ← uses_eq]
  exact cover_method computed key value (by simp [Kind.isComplete])

theorem cover_property (kind : PropertyKind) (isMethod shorthand computed : Bool)
    (key value : Node Nat) :
    Cover (uses (pieces (.property kind isMethod shorthand computed)
        [.one key.part, .one value.part]))
      [key, value]
      ((Kind.property kind isMethod shorthand computed).isComplete [.one key, .one value]) := by
  by_cases plain : kind = .init ∧ isMethod = false
  · obtain ⟨rfl, rfl⟩ := plain
    cases shorthand with
    | true => exact cover_shorthand key value (by simp [Kind.isComplete])
    | false =>
      rw [uses_eq_written [key.part, value.part] (by simp [pieces])]
      exact cover_written [key, value] _
  · have unnamed : (Kind.property kind isMethod shorthand computed).isComplete
        [.one key, .one value] = true → value.isNamedFunction = false := by
      cases kind <;> cases isMethod <;> simp_all [Kind.isComplete]
    rw [uses_eq, links_property plain, ← uses_eq]
    exact cover_method computed key value unnamed

/-- The children that a template writes or shares units with are different ones. -/
theorem cover_pieces {kind : Kind} {fields : List (String × Arity)}
    (hl : kind.fields? = some fields) (hf : slots.map Slot.arity = fields.map Prod.snd) :
    Cover (uses (pieces kind (slots.map (·.map Node.part)))) (slots.flatMap Slot.children)
      (kind.isComplete slots) := by
  cases plain : isSelective kind with
  | false =>
    have hf : Slot.Fits (slots.map (·.map Node.part)) (fields.map Prod.snd) := by
      refine Slot.fits_of_arities ?_
      rw [← hf, List.map_map]
      exact List.map_congr_left fun slot _ => Slot.arity_map _ _
    rw [uses_pieces plain hl hf, children_parts]
    exact cover_written _ _
  | true =>
    -- these types choose among their children or share units
    have hf := Slot.fits_of_arities hf
    cases kind with
    | templateLiteral =>
      cases hl
      repeat cases ‹Slot.Fits _ _›
      simpa [Slot.map, Slot.children] using cover_templateLiteral _ _
    | importDeclaration =>
      cases hl
      repeat cases ‹Slot.Fits _ _›
      simpa [Slot.map, Slot.children] using cover_importDeclaration _ _
    | exportNamedDeclaration =>
      cases hl
      repeat cases ‹Slot.Fits _ _›
      simpa [Slot.map, Slot.children] using cover_exportNamedDeclaration _ _ _
    | importSpecifier | exportSpecifier =>
      cases hl
      repeat cases ‹Slot.Fits _ _›
      exact cover_renamed _ _ _
    | methodDefinition kind computed static =>
      cases hl
      repeat cases ‹Slot.Fits _ _›
      exact cover_methodDefinition kind computed static _ _
    | property kind isMethod shorthand computed =>
      cases hl
      repeat cases ‹Slot.Fits _ _›
      exact cover_property kind isMethod shorthand computed _ _
    | _ => cases plain

end Template

namespace Node

open Piece Use

theorem fits_slots {node : Node Nat} {fields : List (String × Arity)} (hr : node.Regular)
    (hl : node.kind.fields? = some fields) : Slot.Fits node.slots (fields.map Prod.snd) := by
  refine Slot.fits_of_arities ?_
  rw [← hr fields hl, signature, slots, List.map_map, List.map_map]
  rfl

theorem fits_parts {node : Node Nat} {fields : List (String × Arity)} (hr : node.Regular)
    (hl : node.kind.fields? = some fields) : Slot.Fits node.parts (fields.map Prod.snd) := by
  refine Slot.fits_of_arities ?_
  rw [← hr fields hl, signature, parts, slots]
  simp [Slot.arity_map, Function.comp_def]

theorem slots_of_functionExpression {node : Node Nat} (hr : node.Regular)
    {async generator : Bool} (hk : node.kind = .functionExpression async generator) :
    ∃ name params body, node.slots = [.maybe name, .many params, .one body] := by
  have hf := fits_slots hr (congrArg Kind.fields? hk)
  generalize node.slots = slots at hf
  repeat cases ‹Slot.Fits _ _›
  exact ⟨_, _, _, rfl⟩

theorem cover_pieces {node : Node Nat} (hr : node.Regular)
    {fields : List (String × Arity)} (hl : node.kind.fields? = some fields) (place : Place) :
    Cover (uses (node.pieces node.parts place)) node.children
      (node.kind.isComplete node.slots ∧ (place = .method → node.isNamedFunction = false)) := by
  have hf : node.slots.map Slot.arity = fields.map Prod.snd := by
    rw [← hr fields hl, signature, slots, List.map_map, List.map_map]
    rfl
  have usual : Cover (uses (Template.pieces node.kind node.parts)) node.children
      (node.kind.isComplete node.slots ∧ (place = .method → node.isNamedFunction = false)) :=
    (Template.cover_pieces hl hf).imp And.left
  unfold Node.pieces
  split
  next kind declarations hk eq =>
    have same : uses (lit kind.word ++ lit " " ++ commas declarations) =
        uses (Template.pieces node.kind node.parts) := by
      simp [uses_eq, hk, eq, Template.pieces]
    rw [same]
    exact usual
  next async generator slot params body hk eq =>
    obtain ⟨name, params, body, shape⟩ := slots_of_functionExpression hr hk
    rw [parts, shape] at eq
    cases eq
    rw [uses_eq_written _ (links_parameters _ _)]
    refine cover_of_perm name.toList ?_ fun hcom => ?_
    · have all : node.children = name.toList ++ (params ++ [body]) := by
        simp [children, shape, Slot.children]
      rw [all, List.map_append, List.map_append]
      exact List.perm_append_comm
    · have unnamed := hcom.2 rfl
      cases name with
      | none => rfl
      | some name => simp [isNamedFunction, hk, shape] at unnamed
  next typeName _ _ hk =>
    rw [hk] at hl
    cases hl
  next => exact usual

end Node

end SyntaxMarkup
