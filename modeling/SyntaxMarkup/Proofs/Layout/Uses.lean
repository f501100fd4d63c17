import SyntaxMarkup.Layout.Rendering
import SyntaxMarkup.Proofs.Tree.Regular
import Mathlib.Data.List.Forall2
import Mathlib.Data.List.Perm.Basic

namespace SyntaxMarkup

inductive Use where
  /-- The child is written, or its rest after the head of a method. -/
  | write (part : Part) (method : Bool)
  | share (node target : Nat)

namespace Kind

def isVariableDeclaration : Kind → Bool
  | variableDeclaration _ => true
  | _ => false

def isFunctionExpression : Kind → Bool
  | functionExpression _ _ => true
  | _ => false

/-- Where a type writes the child in a field. -/
def placeOf (kind : Kind) (field : String) (child : Kind) : Place :=
  match kind with
  | forStatement => if field == "init" && child.isVariableDeclaration then .header else .plain
  | forInStatement | forOfStatement _ =>
    if field == "left" && child.isVariableDeclaration then .header else .plain
  | property .init false _ _ => .plain
  | methodDefinition _ _ _ | property _ _ _ _ =>
    if field == "value" && child.isFunctionExpression then .method else .plain
  | _ => .plain

/-- How many levels deeper a type writes the children in a field. -/
def deeperIn (kind : Kind) (field : String) : Nat :=
  match kind with
  | blockStatement | staticBlock | classBody => 1
  | switchStatement => if field = "cases" then 1 else 0
  | switchCase => if field = "consequent" then 1 else 0
  | _ => 0

end Kind

namespace Piece

def use? : Piece → Option Use
  | child part .method _ => some (.write part true)
  | child part _ _ => some (.write part false)
  | share node target => some (.share node target)
  | _ => none

theorem exists_use?_child (part : Part) (place : Place) (deeper : Nat) :
    ∃ method, use? (.child part place deeper) = some (.write part method) ∧
      (place = .method → method = true) := by
  cases place with
  | plain | header => exact ⟨false, rfl, nofun⟩
  | method => exact ⟨true, rfl, fun _ => rfl⟩

def uses (pieces : List Piece) : List Use :=
  pieces.filterMap use?

def written (parts : List Part) : List Use :=
  parts.map (.write · false)

def isLink : Piece → Bool
  | child _ _ _ | share _ _ => true
  | _ => false

/-- The pieces that are about children. -/
def links (pieces : List Piece) : List Piece :=
  pieces.filter isLink

def plains (parts : List Part) : List Piece :=
  parts.map (.child · .plain 0)

theorem uses_eq (pieces : List Piece) : uses pieces = (links pieces).filterMap use? := by
  rw [links, List.filterMap_filter]
  refine List.filterMap_congr fun piece _ => ?_
  cases piece <;> rfl

section Written

@[simp] theorem written_nil : written [] = [] := rfl

@[simp] theorem written_cons (part : Part) (rest : List Part) :
    written (part :: rest) = .write part false :: written rest := rfl

@[simp] theorem written_append (first rest : List Part) :
    written (first ++ rest) = written first ++ written rest :=
  List.map_append

theorem uses_eq_written {pieces : List Piece} (parts : List Part)
    (h : links pieces = plains parts) : uses pieces = written parts := by
  rw [uses_eq, h, plains, List.filterMap_map, written, ← List.filterMap_eq_map]
  rfl

end Written

section Links

@[simp] theorem plains_nil : plains [] = [] := rfl

@[simp] theorem plains_cons (part : Part) (rest : List Part) :
    plains (part :: rest) = .child part .plain 0 :: plains rest := rfl

@[simp] theorem plains_append (first rest : List Part) :
    plains (first ++ rest) = plains first ++ plains rest :=
  List.map_append

@[simp] theorem links_nil : links [] = [] := rfl

@[simp] theorem links_text (content : String) (rest : List Piece) :
    links (.text content :: rest) = links rest := rfl

@[simp] theorem links_pad (deeper : Nat) (rest : List Piece) :
    links (.pad deeper :: rest) = links rest := rfl

@[simp] theorem links_child (part : Part) (place : Place) (deeper : Nat) (rest : List Piece) :
    links (.child part place deeper :: rest) = .child part place deeper :: links rest := rfl

@[simp] theorem links_share (node target : Nat) (rest : List Piece) :
    links (.share node target :: rest) = .share node target :: links rest := rfl

@[simp] theorem links_append (first rest : List Piece) :
    links (first ++ rest) = links first ++ links rest :=
  List.filter_append ..

@[simp] theorem links_lit (content : String) : links (lit content) = [] := rfl

@[simp] theorem links_litIf (flag : Bool) (content : String) : links (litIf flag content) = [] := by
  cases flag <;> rfl

@[simp] theorem links_plain (part : Part) : links (plain part) = [.child part .plain 0] := rfl

@[simp] theorem links_atLeast (least : Strength) (part : Part) :
    links (atLeast least part) = [.child part .plain 0] := by
  unfold atLeast
  split <;> rfl

theorem links_given {before : String} {write : Part → List Piece} (part : Option Part)
    (h : ∀ part, links (write part) = [.child part .plain 0]) :
    links (given before write part) = plains part.toList := by
  cases part with
  | none => rfl
  | some part => simp [given, h]

@[simp] theorem links_given_plain (before : String) (part : Option Part) :
    links (given before plain part) = plains part.toList :=
  links_given part links_plain

@[simp] theorem links_given_atLeast (before : String) (least : Strength) (part : Option Part) :
    links (given before (atLeast least) part) = plains part.toList :=
  links_given part (links_atLeast least)

@[simp] theorem links_flatMap {α : Type} (items : List α) (f : α → List Piece) :
    links (items.flatMap f) = items.flatMap fun item => links (f item) := by
  simp [links, List.filter_flatMap]

theorem separated_cons (separator item : List Piece) (rest : List (List Piece)) :
    separated separator (item :: rest) = item ++ rest.flatMap (separator ++ ·) := by
  unfold separated
  induction rest generalizing item with
  | nil => simp
  | cons next others ih =>
    rw [List.intersperse_cons_cons, List.flatten_cons, List.flatten_cons, ih, List.flatMap_cons,
      List.append_assoc]

theorem links_separated {separator : List Piece} (h : links separator = [])
    (items : List (List Piece)) : links (separated separator items) = items.flatMap links := by
  cases items with
  | nil => rfl
  | cons item rest =>
    rw [separated_cons, links_append, links_flatMap, List.flatMap_cons]
    simp [h]

theorem flatMap_singleton_eq_plains (parts : List Part) :
    (parts.flatMap fun part => [Piece.child part .plain 0]) = plains parts := by
  rw [plains, List.map_eq_flatMap]

@[simp] theorem links_commas (parts : List Part) : links (commas parts) = plains parts := by
  rw [commas, links_separated rfl, List.flatMap_map]
  simp [flatMap_singleton_eq_plains]

@[simp] theorem links_sparseCommas (parts : List (Option Part)) :
    links (sparseCommas parts) = plains (parts.filterMap id) := by
  rw [sparseCommas, links_append, links_separated rfl, links_litIf, List.append_nil,
    List.flatMap_map]
  induction parts with
  | nil => rfl
  | cons part rest ih => cases part <;> simp [ih]

@[simp] theorem links_lines (parts : List Part) : links (lines parts) = plains parts := by
  rw [lines, links_separated rfl, List.flatMap_map]
  simp [flatMap_singleton_eq_plains]

@[simp] theorem links_block (parts : List Part) :
    links (block parts) = parts.map (.child · .plain 1) := by
  unfold block
  cases parts with
  | nil => rfl
  | cons part rest => simp [List.map_eq_flatMap]

@[simp] theorem links_braces (parts : List Part) : links (braces parts) = plains parts := by
  cases parts with
  | nil => rfl
  | cons part rest => simp [braces]

@[simp] theorem links_key (computed : Bool) (part : Part) :
    links (key computed part) = [.child part .plain 0] := by
  cases computed <;> simp [key]

@[simp] theorem links_header (part : Part) : links (header part) =
    [.child part (if part.node.kind.isVariableDeclaration then .header else .plain) 0] := by
  unfold header Kind.isVariableDeclaration
  split
  next => simp_all
  next => simp

@[simp] theorem links_parameters (params : List Part) (body : Part) :
    links (parameters params body) = plains (params ++ [body]) := by
  simp [parameters]

@[simp] theorem links_method (computed : Bool) (methodKey value : Part) :
    links (method computed methodKey value) = [.child methodKey .plain 0,
      .child value (if value.node.kind.isFunctionExpression then .method else .plain) 0] := by
  unfold method Kind.isFunctionExpression
  split
  next => simp_all
  next => simp

theorem links_elim {none : List Piece} {write : Part → List Piece} (part : Option Part)
    (h : links none = []) (h' : ∀ part, links (write part) = [.child part .plain 0]) :
    links (part.elim none write) = plains part.toList := by
  cases part with
  | none => exact h
  | some part => exact h' part

end Links

end Piece

namespace Slot

variable {α β : Type}

inductive Fits : List (Slot α) → List Arity → Prop
  | nil : Fits [] []
  | one {child : α} {slots : List (Slot α)} {arities : List Arity} (rest : Fits slots arities) :
      Fits (.one child :: slots) (.one :: arities)
  | maybe {child : Option α} {slots : List (Slot α)} {arities : List Arity}
      (rest : Fits slots arities) : Fits (.maybe child :: slots) (.maybe :: arities)
  | many {children : List α} {slots : List (Slot α)} {arities : List Arity}
      (rest : Fits slots arities) : Fits (.many children :: slots) (.many :: arities)
  | sparse {children : List (Option α)} {slots : List (Slot α)} {arities : List Arity}
      (rest : Fits slots arities) : Fits (.sparse children :: slots) (.sparse :: arities)

theorem fits_of_arities {slots : List (Slot α)} {arities : List Arity}
    (h : slots.map arity = arities) : Fits slots arities := by
  subst h
  induction slots with
  | nil => exact .nil
  | cons slot rest ih =>
    cases slot with
    | one => exact .one ih
    | maybe => exact .maybe ih
    | many => exact .many ih
    | sparse => exact .sparse ih

theorem Fits.length_eq {slots : List (Slot α)} {arities : List Arity} (hf : Fits slots arities) :
    slots.length = arities.length := by
  induction hf with
  | nil => rfl
  | one _ ih | maybe _ ih | many _ ih | sparse _ ih => exact congrArg (· + 1) ih

end Slot

namespace Template

open Piece

/-- Whether the text of a type may leave children out or share units. -/
def isSelective : Kind → Bool
  | .templateLiteral | .importDeclaration | .importSpecifier | .exportNamedDeclaration
  | .exportSpecifier | .methodDefinition _ _ _ | .property _ _ _ _ => true
  | _ => false

@[simp] theorem links_function (async generator : Bool) (name : Option Part) (params : List Part)
    (body : Part) :
    links (function async generator name params body) =
      plains (name.toList ++ params ++ [body]) := by
  simp [function, links_elim name links_nil links_plain]

@[simp] theorem links_classOf (name base : Option Part) (body : Part) :
    links (classOf name base body) = plains (name.toList ++ base.toList ++ [body]) := by
  simp [classOf]

/-- The other types write every child, in the order of the fields. -/
theorem links_pieces {kind : Kind} {fields : List (String × Arity)} {slots : List (Slot Part)}
    (plain : isSelective kind = false) (hl : kind.fields? = some fields)
    (hf : Slot.Fits slots (fields.map Prod.snd)) :
    links (pieces kind slots) = (fields.zip slots).flatMap fun (field, slot) =>
      slot.children.map fun part =>
        .child part (kind.placeOf field.1 part.node.kind) (kind.deeperIn field.1) := by
  cases kind <;> cases plain <;> cases hl <;> (repeat cases ‹Slot.Fits _ _›)
  case literal raw regex bigint => cases regex <;> rfl
  case switchCase test consequent =>
    have head : links (test.elim (lit "default:")
        fun test => lit "case " ++ atLeast .sequence test ++ lit ":") = plains test.toList :=
      links_elim test (links_lit _) (by simp)
    rw [pieces, links_append, head]
    simp [Slot.children, plains, Kind.placeOf, Kind.deeperIn, List.map_eq_flatMap]
  case catchClause param body =>
    have head : links (given " (" (fun param => Piece.plain param ++ lit ")") param) =
        plains param.toList := links_given param (by simp)
    simp only [pieces, links_append, head]
    simp [Slot.children, plains, Kind.placeOf, Kind.deeperIn]
  case forStatement init test update body =>
    cases init <;> simp [pieces, Slot.children, plains, Kind.placeOf, Kind.deeperIn]
  case updateExpression operator leading argument =>
    cases leading <;> simp [pieces, Slot.children, Kind.placeOf, Kind.deeperIn]
  case memberExpression computed optional object property =>
    cases computed <;> simp [pieces, Slot.children, Kind.placeOf, Kind.deeperIn]
  case exportDefaultDeclaration declaration =>
    unfold pieces
    dsimp only
    split <;> simp [Slot.children, Kind.placeOf, Kind.deeperIn]
  case forInStatement | forOfStatement | switchStatement =>
    simp [pieces, Slot.children, Kind.placeOf, Kind.deeperIn]
  -- in all other types the pieces are put together from parts that have lemmas of their own
  all_goals
    simp only [pieces, links_append, links_lit, links_litIf, links_plain, links_atLeast,
      links_commas, links_sparseCommas, links_lines, links_block, links_braces, links_key,
      links_given_plain, links_given_atLeast, links_function, links_classOf, plains_cons,
      plains_append, plains_nil, List.append_nil, List.nil_append, List.cons_append,
      List.append_assoc]
    simp [Slot.children, plains, Kind.placeOf, Kind.deeperIn]

theorem placeOf_ne_method {kind : Kind} (plain : isSelective kind = false) (field : String)
    (child : Kind) : kind.placeOf field child ≠ .method := by
  unfold Kind.placeOf
  split
  case h_4 => exact nofun
  case h_5 | h_6 => cases plain
  case h_7 => exact nofun
  all_goals split <;> exact nofun

theorem uses_pieces {kind : Kind} {fields : List (String × Arity)} {slots : List (Slot Part)}
    (plain : isSelective kind = false) (hl : kind.fields? = some fields)
    (hf : Slot.Fits slots (fields.map Prod.snd)) :
    uses (pieces kind slots) = written (slots.flatMap Slot.children) := by
  have seated (field : String) (part : Part) (deeper : Nat) :
      use? (.child part (kind.placeOf field part.node.kind) deeper) = some (.write part false) := by
    have place := placeOf_ne_method plain field part.node.kind
    cases at_ : kind.placeOf field part.node.kind with
    | plain | header => rfl
    | method => exact absurd at_ place
  have all : (fields.zip slots).map Prod.snd = slots :=
    List.map_snd_zip (by rw [hf.length_eq, List.length_map])
  rw [uses_eq, links_pieces plain hl hf, List.filterMap_flatMap]
  conv_rhs => rw [← all]
  simp [List.flatMap_map, written, List.map_flatMap, List.filterMap_map, seated]

end Template

namespace Node

def part (node : Node Nat) : Part :=
  ⟨node, node.events⟩

@[simp] theorem node_part (node : Node Nat) : node.part.node = node := rfl

def parts (node : Node Nat) : List (Slot Part) :=
  node.slots.map (·.map part)

theorem events_eq (node : Node Nat) (place : Place) (level : Nat) :
    node.events place level =
      node.framed ((node.pieces node.parts place).flatMap (Piece.events level)) := by
  rw [events, fold_eq, List.map_map, parts, slots, List.map_map]
  rfl

end Node

end SyntaxMarkup
