import SyntaxMarkup.Proofs.Layout.Seats
import SyntaxMarkup.Proofs.Markup.Brackets

namespace SyntaxMarkup

namespace Kind

/-- The least strength with which a type writes a child in a field without parentheses. -/
def needs {ι : Type} (kind : Kind) (field : String) (child : Node ι) : Strength :=
  match kind with
  | expressionStatement _ =>
    if child.startsWithBrace || child.startsWithDeclaration then .parenthesized else .sequence
  | variableDeclaration _ | sequenceExpression | yieldExpression _ | spreadElement
  | restElement => .assignment
  | variableDeclarator => if field = "init" then .assignment else 0
  | propertyDefinition _ _ | property .init false false _ =>
    if field = "value" then .assignment else 0
  | assignmentExpression _ | assignmentPattern => if field = "right" then .assignment else 0
  | classDeclaration | classExpression => if field = "superClass" then .call else 0
  | callExpression _ => if field = "callee" then .call else 0
  | newExpression =>
    if field = "callee" then if child.containsCall then .parenthesized else .call else 0
  | taggedTemplateExpression => if field = "tag" then .call else 0
  | memberExpression computed _ =>
    if field = "object" then
      if !computed && child.kind.isBareInteger then .parenthesized else .call
    else 0
  | arrowFunctionExpression _ =>
    if field = "body" then if child.startsWithBrace then .parenthesized else .assignment else 0
  | unaryExpression _ | awaitExpression => .unary
  | updateExpression _ _ => .update
  | binaryExpression operator =>
    if field = "left" then if operator = .power then .update else operator.strength
    else if operator = .power then operator.strength else operator.strength + 1
  | logicalExpression operator =>
    if child.kind.clashesWith operator then .parenthesized
    else if field = "left" then operator.strength else operator.strength + 1
  | conditionalExpression => if field = "test" then .conditional + 1 else .assignment
  | exportDefaultDeclaration =>
    match child.kind with
    | functionDeclaration _ _ | classDeclaration => 0
    | _ => if child.startsWithDeclaration then .parenthesized else .assignment
  | _ => 0

/-- Whether a type writes the children in a field between brackets, whatever they are. -/
def brackets (kind : Kind) (field : String) (child : Kind) : Bool :=
  match kind with
  | blockStatement | staticBlock | classBody | switchStatement | arrayExpression | arrayPattern
  | objectExpression | objectPattern | importExpression | parenthesizedExpression => true
  | withStatement => field == "object"
  | ifStatement | whileStatement | doWhileStatement => field == "test"
  | catchClause => field == "param"
  | forStatement | forInStatement | forOfStatement _ => field != "body"
  | functionDeclaration _ _ | functionExpression _ _ | arrowFunctionExpression _ =>
    field == "params"
  | callExpression _ | newExpression => field == "arguments"
  | templateLiteral => field == "expressions"
  | methodDefinition _ computed _ | propertyDefinition computed _ | property _ _ _ computed =>
    field == "key" && computed
  | memberExpression computed _ => field == "property" && computed
  | importDeclaration => field == "specifiers" && child == .importSpecifier
  | exportNamedDeclaration => field == "specifiers"
  | _ => false

/-- Whether a type writes a child in a field between brackets. -/
def encloses {ι : Type} (kind : Kind) (field : String) (child : Node ι) : Bool :=
  kind.brackets field child.kind || child.kind.strength < kind.needs field child

theorem encloses_eq_false {ι : Type} {kind : Kind} {field : String} {child : Node ι} :
    kind.encloses field child = false ↔
      kind.brackets field child.kind = false ∧ kind.needs field child ≤ child.kind.strength := by
  simp [encloses]

theorem sequence_le_strength (kind : Kind) : Strength.sequence ≤ kind.strength := by
  unfold strength
  split
  case h_6 operator => cases operator <;> decide
  case h_7 operator => cases operator <;> decide
  all_goals decide

/-- Whether the text of a type is all from the tree. -/
def isLeaf : Kind → Bool
  | identifier _ | privateIdentifier _ | literal _ _ _ | templateElement _ _ _ | unknown _ => true
  | _ => false

/-- Whether the template of a type writes no semicolon outside of brackets. -/
def isQuiet : Kind → Bool
  | arrayExpression | objectExpression | functionExpression _ _ | arrowFunctionExpression _
  | classExpression | unaryExpression _ | updateExpression _ _ | binaryExpression _
  | logicalExpression _ | assignmentExpression _ | memberExpression _ _ | conditionalExpression
  | callExpression _ | newExpression | sequenceExpression | yieldExpression _ | awaitExpression
  | templateLiteral | taggedTemplateExpression | metaProperty | importExpression
  | chainExpression | parenthesizedExpression | spreadElement | objectPattern | arrayPattern
  | restElement | assignmentPattern | thisExpression | super | variableDeclarator
  | blockStatement | classBody => true
  | _ => false

end Kind

namespace Piece

open Brackets

/-- Whether pieces that are written while the brackets `around` are open leave open what `post`
accepts, and write each child in brackets that `inside` accepts; quiet pieces have no semicolon
outside of all brackets. -/
def Nests (quiet : Bool) (inside : Part → List Char → Prop) :
    List Char → List Piece → (List Char → Prop) → Prop
  | around, [], post => post around
  | around, .text content :: rest, post =>
    (quiet = true → ';' ∉ outside around content.toList) ∧
      ∃ later, after? around content.toList = some later ∧ Nests quiet inside later rest post
  | around, .pad _ :: rest, post => Nests quiet inside around rest post
  | around, .child part _ _ :: rest, post =>
    inside part around ∧ Nests quiet inside around rest post
  | around, .share _ _ :: rest, post => Nests quiet inside around rest post

section Nests

variable {quiet : Bool} {inside : Part → List Char → Prop} {around : List Char}
  {post : List Char → Prop}

theorem nests_append (first rest : List Piece) :
    Nests quiet inside around (first ++ rest) post ↔
      Nests quiet inside around first fun later => Nests quiet inside later rest post := by
  induction first generalizing around with
  | nil => rfl
  | cons piece first ih => cases piece <;> simp only [List.cons_append, Nests, ih]

theorem nests_lit (content : String) :
    Nests quiet inside around (lit content) post ↔
      (quiet = true → ';' ∉ outside around content.toList) ∧
        ∃ later, after? around content.toList = some later ∧ post later := Iff.rfl

/-- Text that ends some brackets and then opens others; further out nothing changes. -/
theorem nests_text {content : String} {ended opened : List Char}
    (after : after? ended content.toList = some opened)
    (hs : quiet = true → ';' ∉ content.toList) :
    Nests quiet inside (ended ++ around) (lit content) post ↔ post (opened ++ around) := by
  have after := after?_frame after around
  have hs : quiet = true → ';' ∉ outside (ended ++ around) content.toList :=
    fun hq hm => hs hq (mem_of_mem_outside hm)
  rw [nests_lit, after]
  exact (and_iff_right hs).trans (by simp)

theorem nests_balanced {content : String} (hb : Balanced content.toList)
    (hs : ';' ∉ content.toList) :
    Nests quiet inside around (lit content) post ↔ post around :=
  nests_text hb fun _ => hs

theorem nests_round {content : String} (opens : after? [] content.toList = some ['('])
    (hs : ';' ∉ content.toList) :
    Nests quiet inside around (lit content) post ↔ post ('(' :: around) :=
  nests_text opens fun _ => hs

theorem nests_square {content : String} (opens : after? [] content.toList = some ['['])
    (hs : ';' ∉ content.toList) :
    Nests quiet inside around (lit content) post ↔ post ('[' :: around) :=
  nests_text opens fun _ => hs

theorem nests_curly {content : String} (opens : after? [] content.toList = some ['\x7b'])
    (hs : ';' ∉ content.toList) :
    Nests quiet inside around (lit content) post ↔ post ('\x7b' :: around) :=
  nests_text opens fun _ => hs

theorem nests_ending {content : String} {bracket : Char}
    (ends : after? [bracket] content.toList = some []) (hs : ';' ∉ content.toList) :
    Nests quiet inside (bracket :: around) (lit content) post ↔ post around :=
  nests_text ends fun _ => hs

/-- In pieces that are not quiet there may be semicolons. -/
theorem nests_loud {content : String} (hb : Balanced content.toList) :
    Nests false inside around (lit content) post ↔ post around :=
  nests_text hb nofun

theorem nests_loud_ending {content : String} {bracket : Char}
    (ends : after? [bracket] content.toList = some []) :
    Nests false inside (bracket :: around) (lit content) post ↔ post around :=
  nests_text ends nofun

theorem nests_litIf {content : String} (hb : Balanced content.toList)
    (hs : ';' ∉ content.toList) (flag : Bool) :
    Nests quiet inside around (litIf flag content) post ↔ post around := by
  cases flag with
  | true => exact nests_balanced hb hs
  | false => rfl

theorem nests_plain (part : Part) :
    Nests quiet inside around (plain part) post ↔ inside part around ∧ post around := Iff.rfl

/-- The brackets around a child once it has the parentheses that it needs. -/
def withParentheses (least : Strength) (part : Part) (around : List Char) : List Char :=
  if part.node.kind.strength < least then '(' :: around else around

theorem nests_atLeast (least : Strength) (part : Part) :
    Nests quiet inside around (atLeast least part) post ↔
      inside part (withParentheses least part around) ∧ post around := by
  unfold atLeast withParentheses
  split
  · rw [nests_append, nests_append, nests_round (by decide) (by decide),
      nests_plain, nests_ending (by decide) (by decide)]
  · exact nests_plain part

@[simp] theorem withParentheses_eq_nil {least : Strength} {part : Part} :
    withParentheses least part around = [] ↔ around = [] ∧ least ≤ part.node.kind.strength := by
  unfold withParentheses
  split <;> simp_all

@[simp] theorem withParentheses_sequence (part : Part) (around : List Char) :
    withParentheses .sequence part around = around :=
  if_neg (Nat.not_lt.mpr part.node.kind.sequence_le_strength)

theorem nests_given {before : String} (hb : Balanced before.toList)
    (hs : ';' ∉ before.toList) {write : Part → List Piece}
    {accepts : Part → Prop} {part : Option Part}
    (hw : ∀ part, Nests quiet inside around (write part) post ↔ accepts part ∧ post around) :
    Nests quiet inside around (given before write part) post ↔
      (∀ given ∈ part.toList, accepts given) ∧ post around := by
  cases part with
  | none => simp [given, Nests]
  | some part => simp [given, nests_append, nests_balanced hb hs, hw]

theorem nests_given_plain {before : String} (hb : Balanced before.toList)
    (hs : ';' ∉ before.toList) (part : Option Part) :
    Nests quiet inside around (given before plain part) post ↔
      (∀ given ∈ part.toList, inside given around) ∧ post around :=
  nests_given hb hs nests_plain

theorem nests_given_atLeast {before : String} (hb : Balanced before.toList)
    (hs : ';' ∉ before.toList) (least : Strength) (part : Option Part) :
    Nests quiet inside around (given before (atLeast least) part) post ↔
      (∀ given ∈ part.toList, inside given (withParentheses least given around)) ∧ post around :=
  nests_given hb hs (nests_atLeast least)

theorem nests_flatMap {α : Type} {items : List α} {write : α → List Piece} {accepts : α → Prop}
    (hw : ∀ item ∈ items, ∀ post,
      Nests quiet inside around (write item) post ↔ accepts item ∧ post around) :
    Nests quiet inside around (items.flatMap write) post ↔
      (∀ item ∈ items, accepts item) ∧ post around := by
  induction items with
  | nil => simp [Nests]
  | cons item items ih =>
    obtain ⟨here, others⟩ := List.forall_mem_cons.mp hw
    rw [List.flatMap_cons, nests_append, here, ih others, List.forall_mem_cons, and_assoc]

theorem nests_separated {separator : String} (hb : Balanced separator.toList)
    (hs : ';' ∉ separator.toList) {α : Type}
    {items : List α} {write : α → List Piece} {accepts : α → Prop}
    (hw : ∀ item ∈ items, ∀ post,
      Nests quiet inside around (write item) post ↔ accepts item ∧ post around) :
    Nests quiet inside around (separated (lit separator) (items.map write)) post ↔
      (∀ item ∈ items, accepts item) ∧ post around := by
  cases items with
  | nil => simp [separated, Nests]
  | cons item items =>
    obtain ⟨here, others⟩ := List.forall_mem_cons.mp hw
    have rest : ∀ item ∈ items, ∀ post,
        Nests quiet inside around (lit separator ++ write item) post ↔
          accepts item ∧ post around := fun item hm post => by
      rw [nests_append, nests_balanced hb hs, others item hm]
    rw [List.map_cons, separated_cons, nests_append, here, List.flatMap_map, nests_flatMap rest,
      List.forall_mem_cons, and_assoc]

theorem nests_commas (parts : List Part) :
    Nests quiet inside around (commas parts) post ↔
      (∀ part ∈ parts, inside part (withParentheses .assignment part around)) ∧ post around :=
  nests_separated (by decide) (by decide) fun part _ _ => nests_atLeast .assignment part

theorem nests_sparseCommas (parts : List (Option Part)) :
    Nests quiet inside around (sparseCommas parts) post ↔
      (∀ part ∈ parts.filterMap id, inside part (withParentheses .assignment part around)) ∧
        post around := by
  have each : ∀ item ∈ parts, ∀ post,
      Nests quiet inside around (item.elim [] (atLeast .assignment)) post ↔
        (∀ part ∈ item, inside part (withParentheses .assignment part around)) ∧ post around := by
    intro item _ post
    cases item with
    | none => simp [Nests]
    | some part => simp [nests_atLeast]
  rw [sparseCommas, nests_append, nests_separated (by decide) (by decide) each,
    nests_litIf (by decide) (by decide)]
  refine and_congr_left fun _ => ?_
  simp only [List.mem_filterMap, id, Option.mem_def]
  constructor
  · rintro all part ⟨item, hm, eq⟩
    exact all item hm part eq
  · intro all item hm part eq
    exact all part ⟨item, hm, eq⟩

theorem nests_lines (parts : List Part) :
    Nests quiet inside around (lines parts) post ↔
      (∀ part ∈ parts, inside part around) ∧ post around :=
  nests_separated (by decide) (by decide) fun part _ _ => nests_plain part

theorem nests_block (parts : List Part) :
    Nests quiet inside around (block parts) post ↔
      (∀ part ∈ parts, inside part ('\x7b' :: around)) ∧ post around := by
  have each : ∀ part ∈ parts, ∀ post, Nests quiet inside ('\x7b' :: around)
      [.pad 1, .child part .plain 1, .text "\n"] post ↔
        inside part ('\x7b' :: around) ∧ post ('\x7b' :: around) := fun part _ post =>
    and_congr_right fun _ => nests_balanced (by decide) (by decide)
  unfold block
  split
  next empty =>
    rw [List.isEmpty_iff.mp empty]
    exact (nests_balanced (by decide : Balanced "\x7b\x7d".toList) (by decide)).trans (by simp)
  next =>
    rw [nests_append, nests_append, nests_curly (by decide) (by decide),
      nests_flatMap each]
    exact and_congr_right fun _ => nests_ending (by decide) (by decide)

theorem nests_braces (parts : List Part) :
    Nests quiet inside around (braces parts) post ↔
      (∀ part ∈ parts, inside part (withParentheses .assignment part ('\x7b' :: around))) ∧
        post around := by
  unfold braces
  split
  next empty =>
    rw [List.isEmpty_iff.mp empty]
    exact (nests_balanced (by decide : Balanced "\x7b\x7d".toList) (by decide)).trans (by simp)
  next =>
    rw [nests_append, nests_append, nests_curly (by decide) (by decide), nests_commas]
    exact and_congr_right fun _ => nests_ending (by decide) (by decide)

theorem nests_key (computed : Bool) (part : Part) :
    Nests quiet inside around (key computed part) post ↔
      inside part (if computed then withParentheses .assignment part ('[' :: around) else around) ∧
        post around := by
  cases computed with
  | false => exact nests_plain part
  | true =>
    rw [key, if_pos rfl, if_pos rfl, nests_append, nests_append,
      nests_square (by decide) (by decide), nests_atLeast]
    exact and_congr_right fun _ => nests_ending (by decide) (by decide)

theorem nests_header (part : Part) :
    Nests quiet inside around (header part) post ↔
      inside part (withParentheses .sequence part around) ∧ post around := by
  unfold header
  split
  next kind hk =>
    rw [withParentheses, hk, if_neg (by simp [Kind.strength, Strength.primary,
      Strength.sequence])]
    exact nests_plain part
  next => exact nests_atLeast .sequence part

theorem nests_parameters (params : List Part) (body : Part) :
    Nests quiet inside around (parameters params body) post ↔
      (∀ part ∈ params, inside part (withParentheses .assignment part ('(' :: around))) ∧
        inside body around ∧ post around := by
  rw [parameters, nests_append, nests_append, nests_append, nests_round (by decide) (by decide),
    nests_commas]
  exact and_congr_right fun _ => nests_ending (by decide) (by decide)

theorem nests_method (computed : Bool) (methodKey value : Part) :
    Nests quiet inside around (method computed methodKey value) post ↔
      inside methodKey
          (if computed then withParentheses .assignment methodKey ('[' :: around) else around) ∧
        inside value around ∧ post around := by
  unfold method
  split
  next =>
    rw [nests_append, nests_append, nests_append, nests_litIf (by decide) (by decide),
      nests_litIf (by decide) (by decide), nests_key]
    rfl
  next =>
    rw [nests_append, nests_key]
    rfl

theorem nests_renamed (name other : Part) :
    Nests quiet inside around (renamed name other) post ↔
      inside name around ∧ (name.node.sameName other.node = false → inside other around) ∧
        post around := by
  unfold renamed
  cases name.node.sameName other.node with
  | true =>
    rw [if_pos rfl]
    simp [nests_append, nests_plain, Nests]
  | false =>
    rw [if_neg Bool.false_ne_true, nests_append, nests_append, nests_plain]
    simp [nests_balanced (by decide : Balanced " as ".toList) (by decide), nests_plain]

end Nests

end Piece

namespace Template

open Piece Brackets

section Nests

variable {quiet : Bool} {inside : Part → List Char → Prop} {around : List Char}
  {post : List Char → Prop}

theorem nests_function (async generator : Bool) (name : Option Part) (params : List Part)
    (body : Part) :
    Nests quiet inside around (function async generator name params body) post ↔
      (∀ part ∈ name.toList, inside part around) ∧
        (∀ part ∈ params, inside part (withParentheses .assignment part ('(' :: around))) ∧
        inside body around ∧ post around := by
  have hn (post) : Nests quiet inside around (name.elim [] plain) post ↔
      (∀ part ∈ name.toList, inside part around) ∧ post around := by
    cases name with
    | none => simp [Nests]
    | some name => simp [nests_plain]
  rw [function, nests_append, nests_append, nests_append, nests_append, nests_append,
    nests_litIf (by decide) (by decide), nests_balanced (by decide) (by decide),
    nests_litIf (by decide) (by decide), nests_balanced (by decide) (by decide), hn,
    nests_parameters]

theorem nests_classOf (name base : Option Part) (body : Part) :
    Nests quiet inside around (classOf name base body) post ↔
      (∀ part ∈ name.toList, inside part around) ∧
        (∀ part ∈ base.toList, inside part (withParentheses .call part around)) ∧
        inside body around ∧ post around := by
  rw [classOf, nests_append, nests_append, nests_append, nests_append,
    nests_balanced (by decide) (by decide), nests_given (by decide) (by decide) nests_plain,
    nests_given (by decide) (by decide) (nests_atLeast .call),
    nests_balanced (by decide) (by decide), nests_plain]

theorem nests_interleave (quasis expressions : List Part) :
    Nests quiet inside around (interleave quasis expressions) post ↔
      (∀ part ∈ quasis, inside part around) ∧
        (∀ part ∈ expressions.take quasis.length,
          inside part (withParentheses .sequence part ('\x7b' :: around))) ∧ post around := by
  induction quasis generalizing expressions with
  | nil => simp [interleave, Nests]
  | cons quasi quasis ih =>
    cases expressions with
    | nil =>
      rw [interleave, nests_append, nests_plain, ih]
      simp [and_assoc]
    | cons expression expressions =>
      rw [interleave, nests_append, nests_append, nests_append, nests_append, nests_plain,
        nests_curly (by decide) (by decide), nests_atLeast,
        nests_ending (by decide) (by decide), ih]
      simp only [List.forall_mem_cons, List.length_cons, List.take_succ_cons]
      tauto

theorem nests_importClause (parts : List Part) :
    Nests quiet inside around (importClause parts) post ↔
      (∀ part ∈ specifiers .importDefaultSpecifier parts ++
        specifiers .importNamespaceSpecifier parts, inside part around) ∧
        (∀ part ∈ specifiers .importSpecifier parts,
          inside part (withParentheses .assignment part ('\x7b' :: around))) ∧ post around := by
  rw [importClause]
  generalize specifiers .importDefaultSpecifier parts ++
    specifiers .importNamespaceSpecifier parts = outer
  generalize specifiers .importSpecifier parts = names
  -- the braces are one more item, if there are names
  have hw : ∀ item : Option Part, ∀ post, Nests quiet inside around
      (item.elim (lit "\x7b " ++ commas names ++ lit " \x7d") plain) post ↔
        item.elim (∀ part ∈ names,
          inside part (withParentheses .assignment part ('\x7b' :: around)))
          (inside · around) ∧ post around := by
    intro item post
    cases item with
    | some part => exact nests_plain part
    | none =>
      rw [Option.elim_none, nests_append, nests_append, nests_curly (by decide) (by decide),
        nests_commas]
      exact and_congr_right fun _ => nests_ending (by decide) (by decide)
  have same : outer.map plain ++
      (if names.isEmpty then [] else [lit "\x7b " ++ commas names ++ lit " \x7d"]) =
        (outer.map some ++ if names.isEmpty then [] else [none]).map fun item : Option Part =>
          item.elim (lit "\x7b " ++ commas names ++ lit " \x7d") plain := by
    cases names <;> simp
  rw [same, nests_separated (by decide) (by decide) fun item _ => hw item, ← and_assoc,
    List.forall_mem_append, List.forall_mem_map]
  refine and_congr_left fun _ => and_congr_right fun _ => ?_
  cases names <;> simp

theorem nests_word {word : String} (hneutral : isNeutral word.toList = true) :
    Nests quiet inside around (lit word) post ↔ post around :=
  nests_balanced (balanced_of_isNeutral hneutral) (not_mem_of_isNeutral hneutral)

theorem nests_unaryOperator (operator : UnaryOperator) :
    Nests quiet inside around (lit operator.word) post ↔ post around :=
  nests_word (by cases operator <;> decide)

theorem nests_updateOperator (operator : UpdateOperator) :
    Nests quiet inside around (lit operator.word) post ↔ post around :=
  nests_word (by cases operator <;> decide)

theorem nests_binaryOperator (operator : BinaryOperator) :
    Nests quiet inside around (lit operator.word) post ↔ post around :=
  nests_word (by cases operator <;> decide)

theorem nests_logicalOperator (operator : LogicalOperator) :
    Nests quiet inside around (lit operator.word) post ↔ post around :=
  nests_word (by cases operator <;> decide)

theorem nests_assignmentOperator (operator : AssignmentOperator) :
    Nests quiet inside around (lit operator.word) post ↔ post around :=
  nests_word (by cases operator <;> decide)

theorem nests_variableKind (kind : VariableKind) :
    Nests quiet inside around (lit kind.word) post ↔ post around :=
  nests_word (by cases kind <;> decide)

end Nests

theorem mem_specifiers {type : Kind} {parts : List Part} {part : Part} :
    part ∈ specifiers type parts ↔ part ∈ parts ∧ part.node.kind = type := by
  simp [specifiers]

section Pieces

variable {quiet : Bool} {inside : Part → List Char → Prop} {around : List Char}
  {post : List Char → Prop}

theorem nests_property (kind : PropertyKind) (isMethod shorthand computed : Bool)
    (key value : Part) :
    Nests quiet inside around
        (pieces (.property kind isMethod shorthand computed) [.one key, .one value]) post ↔
      if kind = .init ∧ isMethod = false then
        (shorthand = false → inside key
            (if computed then withParentheses .assignment key ('[' :: around) else around)) ∧
          inside value
            (if shorthand then around else withParentheses .assignment value around) ∧ post around
      else
        inside key (if computed then withParentheses .assignment key ('[' :: around) else around) ∧
          inside value around ∧ post around := by
  cases kind <;> cases isMethod <;> cases shorthand <;>
    simp (disch := decide) [pieces, nests_append, nests_balanced, nests_litIf, nests_key,
      nests_atLeast, nests_plain, nests_method, Nests]

theorem nests_updateExpression (operator : UpdateOperator) (before : Bool) (argument : Part) :
    Nests quiet inside around (pieces (.updateExpression operator before) [.one argument]) post ↔
      inside argument (withParentheses .update argument around) ∧ post around := by
  cases before <;> simp [pieces, nests_append, nests_updateOperator, nests_atLeast]

theorem nests_memberExpression (computed optional : Bool) (object property : Part) :
    Nests quiet inside around
        (pieces (.memberExpression computed optional) [.one object, .one property]) post ↔
      inside object (withParentheses
        (if !computed && object.node.kind.isBareInteger then .parenthesized else .call)
          object around) ∧
        inside property (if computed then '[' :: around else around) ∧ post around := by
  cases computed <;> cases optional <;>
    simp (disch := decide) [pieces, nests_append, nests_atLeast, nests_plain, nests_balanced,
      nests_square, nests_ending]

theorem nests_yieldExpression (delegate : Bool) (argument : Option Part) :
    Nests quiet inside around (pieces (.yieldExpression delegate) [.maybe argument]) post ↔
      (∀ part ∈ argument.toList, inside part (withParentheses .assignment part around)) ∧
        post around := by
  cases delegate <;>
    simp (disch := decide) [pieces, nests_append, nests_balanced, nests_given_atLeast]

theorem nests_forStatement (init test update : Option Part) (body : Part) :
    Nests false inside around
        (pieces .forStatement [.maybe init, .maybe test, .maybe update, .one body]) post ↔
      (∀ part ∈ init.toList ++ test.toList ++ update.toList, inside part ('(' :: around)) ∧
        inside body around ∧ post around := by
  cases init <;>
    simp (disch := decide) [pieces, nests_append, nests_round, nests_loud, nests_ending,
      nests_given_atLeast, nests_header, nests_plain, or_imp, forall_and, and_assoc]

theorem nests_forOfStatement (await : Bool) (left right body : Part) :
    Nests quiet inside around (pieces (.forOfStatement await) [.one left, .one right, .one body])
        post ↔
      inside left ('(' :: around) ∧
        inside right (withParentheses .assignment right ('(' :: around)) ∧
        inside body around ∧ post around := by
  cases await <;>
    simp (disch := decide) [pieces, nests_append, nests_round, nests_balanced, nests_ending,
      nests_header, nests_atLeast, nests_plain]

theorem nests_switchCase (test : Option Part) (consequent : List Part) :
    Nests quiet inside around (pieces .switchCase [.maybe test, .many consequent]) post ↔
      (∀ part ∈ test.toList, inside part around) ∧ (∀ part ∈ consequent, inside part around) ∧
        post around := by
  have line : ∀ part ∈ consequent, ∀ post,
      Nests quiet inside around [.text "\n", .pad 1, .child part .plain 1] post ↔
        inside part around ∧ post around := by
    intro part _ post
    change Nests quiet inside around (lit "\n" ++ [.pad 1, .child part .plain 1]) post ↔ _
    rw [nests_append, nests_balanced (by decide) (by decide)]
    rfl
  cases test <;>
    simp (disch := decide) [pieces, nests_append, nests_balanced, nests_atLeast,
      nests_flatMap line]

theorem nests_catchClause (param : Option Part) (body : Part) :
    Nests quiet inside around (pieces .catchClause [.maybe param, .one body]) post ↔
      (∀ part ∈ param.toList, inside part ('(' :: around)) ∧ inside body around ∧ post around := by
  cases param <;>
    simp (disch := decide) [pieces, given, nests_append, nests_round, nests_balanced, nests_ending,
      nests_plain]

theorem nests_importDeclaration (parts : List Part) (source : Part) :
    Nests false inside around (pieces .importDeclaration [.many parts, .one source]) post ↔
      (∀ part ∈ specifiers .importDefaultSpecifier parts ++
        specifiers .importNamespaceSpecifier parts, inside part around) ∧
        (∀ part ∈ specifiers .importSpecifier parts,
          inside part (withParentheses .assignment part ('\x7b' :: around))) ∧
        inside source around ∧ post around := by
  cases parts with
  | nil =>
    simp (disch := decide) [pieces, nests_append, nests_balanced, nests_loud, nests_plain,
      specifiers]
  | cons part parts =>
    simp (disch := decide) only [pieces, List.isEmpty_cons, Bool.false_eq_true, if_false,
      nests_append, nests_balanced, nests_loud, nests_plain, nests_importClause]

theorem nests_exportNamed (declaration source : Option Part) (specifiers : List Part) :
    Nests false inside around
        (pieces .exportNamedDeclaration [.maybe declaration, .many specifiers, .maybe source])
        post ↔
      (∀ part ∈ declaration.toList, inside part around) ∧
        (declaration = none → (∀ part ∈ specifiers,
          inside part (withParentheses .assignment part ('\x7b' :: around))) ∧
          ∀ part ∈ source.toList, inside part around) ∧ post around := by
  cases declaration <;>
    simp (disch := decide) [pieces, nests_append, nests_balanced, nests_loud, nests_plain,
      nests_braces, nests_given_plain, and_assoc]

theorem nests_exportDefault (declaration : Part) :
    Nests false inside around (pieces .exportDefaultDeclaration [.one declaration]) post ↔
      inside declaration (withParentheses
        (Kind.exportDefaultDeclaration.needs "declaration" declaration.node) declaration around) ∧
        post around := by
  have bare (around) : withParentheses 0 declaration around = around :=
    if_neg (Nat.not_lt_zero _)
  simp (disch := decide) only [pieces, nests_append, nests_balanced]
  split
  next hk => simp only [Kind.needs, hk, bare, nests_plain]
  next hk => simp only [Kind.needs, hk, bare, nests_plain]
  next hfun hc =>
    have needs : Kind.exportDefaultDeclaration.needs "declaration" declaration.node =
        if declaration.node.startsWithDeclaration then .parenthesized else .assignment := by
      simp only [Kind.needs]
    rw [needs, nests_append, nests_atLeast, nests_loud (by decide)]

end Pieces

section Kinds

variable {inside : Part → List Char → Prop} {kind : Kind} {fields : List (String × Arity)}
  {slots : List (Slot Part)} (hl : kind.fields? = some fields)
  (hf : Slot.Fits slots (fields.map Prod.snd))
  (each : ∀ entry ∈ fields.zip slots, ∀ part ∈ entry.2.children, ∀ around,
    (around = [] ↔ kind.encloses entry.1.1 part.node = false) → inside part around)
include hl hf each

theorem nests_of_isQuiet (hq : kind.isQuiet = true) :
    Nests true inside [] (pieces kind slots) (· = []) := by
  simp only [Kind.encloses_eq_false] at each
  cases kind <;> cases hq <;> cases hl <;> (repeat cases ‹Slot.Fits _ _›)
  all_goals simp [Slot.children, Kind.brackets, Kind.needs] at each
  case updateExpression =>
    rw [nests_updateExpression]
    simp_all
  case memberExpression computed _ _ _ =>
    rw [nests_memberExpression]
    cases computed <;> simp_all
  case yieldExpression =>
    rw [nests_yieldExpression]
    simp +contextual [each]
  -- the other templates are made of the same few parts
  all_goals
    simp (disch := decide) only [pieces, nests_append, nests_balanced, nests_round, nests_square,
      nests_ending, nests_litIf, nests_plain, nests_atLeast, nests_given_atLeast, nests_commas,
      nests_sparseCommas, nests_block, nests_braces, nests_function, nests_classOf,
      nests_interleave, nests_unaryOperator, nests_binaryOperator, nests_logicalOperator,
      nests_assignmentOperator, withParentheses_sequence, and_true]
  case templateLiteral =>
    exact ⟨each.1, fun part hm =>
      each.2 part (List.mem_of_mem_take hm) _ (List.cons_ne_nil _ _)⟩
  case binaryExpression =>
    split <;> simp_all
  all_goals simp +contextual [each]

theorem nests_of_not_isQuiet (hq : kind.isQuiet = false) (hleaf : kind.isLeaf = false) :
    Nests false inside [] (pieces kind slots) (· = []) := by
  simp only [Kind.encloses_eq_false] at each
  cases kind <;> cases hq <;> cases hleaf <;> cases hl <;>
    (repeat cases ‹Slot.Fits _ _›)
  case exportDefaultDeclaration =>
    rw [nests_exportDefault]
    exact ⟨each (_, .one _) List.mem_cons_self _ List.mem_cons_self _ (by simp [Kind.brackets]),
      rfl⟩
  all_goals simp [Slot.children, Kind.brackets, Kind.needs] at each
  case property kind isMethod shorthand computed _ _ =>
    rw [nests_property]
    cases kind <;> cases isMethod <;> cases shorthand <;> cases computed <;> simp_all
  case forStatement =>
    rw [nests_forStatement]
    simp_all [or_imp]
  case forOfStatement =>
    rw [nests_forOfStatement]
    simp_all
  case switchCase =>
    rw [nests_switchCase]
    simp_all
  case catchClause =>
    rw [nests_catchClause]
    simp_all
  case exportNamedDeclaration =>
    rw [nests_exportNamed]
    simp_all
  case importDeclaration =>
    rw [nests_importDeclaration]
    simp +contextual [each, mem_specifiers, or_imp]
  all_goals
    simp (disch := decide) only [pieces, nests_append, nests_balanced, nests_round, nests_ending,
      nests_loud, nests_loud_ending, nests_litIf, nests_plain, nests_atLeast, nests_given_plain,
      nests_given_atLeast, nests_commas, nests_lines, nests_block, nests_key, nests_header,
      nests_method, nests_renamed, nests_function, nests_classOf, nests_variableKind, and_true]
  all_goals simp +contextual [each]

end Kinds

end Template

namespace Node

open Piece

variable {node : Node Nat} {fields : List (String × Arity)}

theorem exists_edge_of_part (hr : node.Regular) (hl : node.kind.fields? = some fields)
    {entry : (String × Arity) × Slot Part} (hm : entry ∈ fields.zip node.parts) {written : Part}
    (hslot : written ∈ entry.2.children) :
    ∃ edge ∈ node.edges, edge.key = entry.1.1 ∧ edge.child.part = written := by
  rw [parts, List.zip_map_right] at hm
  obtain ⟨⟨field, slot⟩, zipped, rfl⟩ := List.mem_map.mp hm
  rw [Prod.map_snd, Slot.children_map] at hslot
  obtain ⟨child, hc, rfl⟩ := List.mem_map.mp hslot
  obtain ⟨index, hc⟩ := exists_mem_entries.mpr hc
  exact (exists_edge_iff hr hl).mpr ⟨_, zipped, index, child, hc, rfl, rfl⟩

theorem exists_part_of_edge (hr : node.Regular) (hl : node.kind.fields? = some fields)
    {edge : Edge (Node Nat)} (he : edge ∈ node.edges) :
    ∃ entry ∈ fields.zip node.parts, entry.1.1 = edge.key ∧
      edge.child.part ∈ entry.2.children := by
  obtain ⟨entry, zipped, index, child, hslot, rfl⟩ :=
    (exists_edge_iff hr hl (P := (· = edge))).mp ⟨edge, he, rfl⟩
  refine ⟨(entry.1, entry.2.map part), ?_, rfl, ?_⟩
  · rw [parts, List.zip_map_right]
    exact List.mem_map.mpr ⟨entry, zipped, rfl⟩
  · rw [Slot.children_map]
    exact List.mem_map_of_mem (exists_mem_entries.mp ⟨index, hslot⟩)

variable {inside : Part → List Char → Prop}

section Pieces

variable (hr : node.Regular)
  (each : ∀ edge ∈ node.edges, ∀ around,
    (around = [] ↔ node.kind.encloses edge.key edge.child = false) → inside edge.child.part around)
include hr each

/-- In the header of a loop a declaration has no semicolon. -/
theorem nests_declaration {kind : VariableKind} (hk : node.kind = .variableDeclaration kind)
    (quiet : Bool) : Nests quiet inside [] (node.pieces node.parts .header) (· = []) := by
  have hl := congrArg Kind.fields? hk
  have hf := fits_parts hr hl
  have edges := @exists_edge_of_part node _ hr hl
  generalize node.parts = slots at hf edges
  repeat cases ‹Slot.Fits _ _›
  rename_i declarations
  have hw : node.pieces [.many declarations] .header =
      lit kind.word ++ lit " " ++ commas declarations := by
    simp only [pieces, hk]
  rw [hw, nests_append, nests_append, Template.nests_variableKind,
    nests_balanced (by decide) (by decide), nests_commas]
  refine ⟨fun declarator hm => ?_, rfl⟩
  obtain ⟨edge, he, -, rfl⟩ := edges List.mem_cons_self hm
  exact each edge he _ (by simp [Kind.encloses_eq_false, hk, Kind.brackets, Kind.needs])

/-- A method is its parameters and its body. -/
theorem nests_functionExpression {async generator : Bool}
    (hk : node.kind = .functionExpression async generator) (quiet : Bool) :
    Nests quiet inside [] (node.pieces node.parts .method) (· = []) := by
  have hl := congrArg Kind.fields? hk
  have hf := fits_parts hr hl
  have edges := @exists_edge_of_part node _ hr hl
  generalize node.parts = slots at hf edges
  repeat cases ‹Slot.Fits _ _›
  rename_i name params body
  have hw : node.pieces [.maybe name, .many params, .one body] .method =
      parameters params body := by
    simp only [pieces, hk]
  rw [hw, nests_parameters]
  refine ⟨fun param hm => ?_, ?_, rfl⟩
  · obtain ⟨edge, he, key, rfl⟩ := edges (.tail _ List.mem_cons_self) hm
    exact each edge he _ (by simp [Kind.encloses_eq_false, hk, Kind.brackets, key])
  · obtain ⟨edge, he, key, rfl⟩ :=
      edges (.tail _ (.tail _ List.mem_cons_self)) List.mem_cons_self
    exact each edge he _
      (by simp [Kind.encloses_eq_false, hk, Kind.brackets, Kind.needs, key])

/-- A node that is no leaf ends the brackets that it starts, and has those of its children in
brackets that its type encloses. -/
theorem nests_pieces (hleaf : node.kind.isLeaf = false) (place : Place) :
    Nests node.kind.isQuiet inside [] (node.pieces node.parts place) (· = []) := by
  unfold pieces
  split
  next kind declarations hk eq =>
    have header := nests_declaration hr each hk node.kind.isQuiet
    rw [eq] at header
    simpa only [pieces, hk] using header
  next async generator slot params body hk eq =>
    have method := nests_functionExpression hr each hk node.kind.isQuiet
    rw [eq] at method
    simpa only [pieces, hk] using method
  next hk =>
    rw [hk] at hleaf
    cases hleaf
  next hunknown _ _ =>
    cases hl : node.kind.fields? with
    | none =>
      have hu := Kind.fields?_eq_none.mp hl
      unfold Kind.isUnknown at hu
      split at hu
      next hk => exact absurd hk (hunknown _)
      next => cases hu
    | some fields =>
      have hf := fits_parts hr hl
      have each : ∀ entry ∈ fields.zip node.parts, ∀ part ∈ entry.2.children, ∀ around,
          (around = [] ↔ node.kind.encloses entry.1.1 part.node = false) → inside part around := by
        intro entry hm part hslot around bare
        obtain ⟨edge, he, key, rfl⟩ := exists_edge_of_part hr hl hm hslot
        exact each edge he around (key ▸ bare)
      cases quiet : node.kind.isQuiet with
      | true => exact Template.nests_of_isQuiet hl hf each quiet
      | false => exact Template.nests_of_not_isQuiet hl hf each quiet hleaf

end Pieces

/-- Whether there are brackets around a child exactly if the type of the node encloses it. -/
def Follows (node : Node Nat) (written : Part) (around : List Char) : Prop :=
  ∃ edge ∈ node.edges, edge.child.part = written ∧
    (around = [] ↔ node.kind.encloses edge.key edge.child = false)

theorem follows_declaration {kind : VariableKind} (hr : node.Regular)
    (hk : node.kind = .variableDeclaration kind) (quiet : Bool) :
    Nests quiet node.Follows [] (node.pieces node.parts .header) (· = []) :=
  nests_declaration hr (fun edge he _ bare => ⟨edge, he, rfl, bare⟩) hk quiet

theorem follows_pieces (hr : node.Regular) (hleaf : node.kind.isLeaf = false)
    (place : Place) :
    Nests node.kind.isQuiet node.Follows [] (node.pieces node.parts place) (· = []) :=
  nests_pieces hr (fun edge he _ bare => ⟨edge, he, rfl, bare⟩) hleaf place

end Node

end SyntaxMarkup
