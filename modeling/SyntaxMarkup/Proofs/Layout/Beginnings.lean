import SyntaxMarkup.Proofs.Layout.Characters
import SyntaxMarkup.Proofs.Layout.Nesting
import SyntaxMarkup.Proofs.Layout.Renumbering
import SyntaxMarkup.Proofs.Markup.Words
import SyntaxMarkup.Proofs.Tree.Grammar

namespace SyntaxMarkup

/-- Whether the text that a node has of its own starts neither a block nor a declaration: names are
names, and literals are no words of declarations. -/
def Kind.isPlain : Kind → Bool
  | identifier name =>
    (name.toList.head?.any fun c => isWordChar c && !c.isDigit) && name.toList.all isWordChar &&
      name != "function" && name != "class"
  | literal raw none _ => isPlainText raw.toList
  | _ => true

namespace Node

/-- What a node writes where it is an operand. -/
def written (indent : String) (level : Nat) (node : Node Nat) : List Char :=
  (node.events .plain level).flatMap (Event.chars indent)

/-- If a text that starts with a node may be taken for a block or a declaration, the node that the
text starts with tells. -/
structure Announced (node : Node Nat) (text : List Char) : Prop where
  brace : text.head? = some '\x7b' → node.startsWithBrace = true
  declaration : beginsDeclaration text = true → node.startsWithDeclaration = true

variable {node : Node Nat} {indent : String} {level : Nat}

theorem Announced.of_harmless {text : List Char} (harmless : Harmless text) :
    node.Announced text :=
  ⟨fun starts => absurd starts harmless.brace,
    fun starts => absurd starts (by simp [harmless.declaration])⟩

theorem Announced.of_leading {child : Node Nat} {text : List Char}
    (leading : node.kind.leading? node.slots = some child) (hann : child.Announced text) :
    node.Announced text := by
  have first : node.firstKind = child.firstKind := by
    rw [firstKind_eq, leading]
    rfl
  constructor
  · rw [startsWithBrace, first]
    exact hann.brace
  · rw [startsWithDeclaration, first]
    exact hann.declaration

theorem chars_operand (least : Strength) (node : Node Nat) :
    Piece.chars indent level (Piece.atLeast least node.part) =
      if node.kind.strength < least then '(' :: node.written indent level ++ [')']
      else node.written indent level :=
  Piece.chars_atLeast least node.part

/-- Where the text of a child comes first, it tells how the text of the node starts. -/
theorem Announced.of_operand {child : Node Nat} {least : Strength} {tail : List Piece}
    {rest : List Char} (leading : node.kind.leading? node.slots = some child)
    (hann : ∀ rest, Apart rest → child.Announced (child.written indent level ++ rest))
    (ha : Apart (Piece.chars indent level tail ++ rest)) :
    node.Announced (Piece.chars indent level (Piece.atLeast least child.part ++ tail) ++ rest) := by
  rw [Piece.chars_append, chars_operand, List.append_assoc]
  split
  · exact .of_harmless (@Apart.of_symbol ['('] (by decide) _).harmless
  · exact .of_leading leading (hann _ ha)

end Node

theorem Piece.atLeast_zero (part : Part) : Piece.atLeast 0 part = Piece.plain part :=
  if_neg (Nat.not_lt_zero _)

namespace Template

open Piece

variable {indent : String} {level : Nat} {kind : Kind} {fields : List (String × Arity)}
  {slots : List (Slot Part)} (hl : kind.fields? = some fields)
  (hf : Slot.Fits slots (fields.map Prod.snd))
include hl hf

/-- A template that starts with a child goes on with a symbol, with an operator between blanks, or
not at all. -/
theorem exists_operand {first : Part} (leading : kind.leading? slots = some first)
    (quoted : ∀ tag quasi, kind = .taggedTemplateExpression → slots = [.one tag, .one quasi] →
      ∀ rest, Apart (chars indent level (plain quasi) ++ rest)) {rest : List Char}
    (ha : Apart rest) :
    ∃ least tail, pieces kind slots = atLeast least first ++ tail ∧
      Apart (chars indent level tail ++ rest) := by
  unfold Kind.leading? at leading
  split at leading <;> cases leading <;> cases hl <;> (repeat cases ‹Slot.Fits _ _›)
  case h_1 optional _ =>
    simp only [pieces, List.append_assoc]
    refine ⟨_, _, rfl, ?_⟩
    cases optional <;> simp only [chars_append, chars_litIf, chars_lit, List.append_assoc,
      Bool.false_eq_true, if_true, if_false, List.nil_append]
    all_goals exact .of_symbol (by decide) _
  case h_2 computed optional _ =>
    cases computed <;> simp only [pieces, List.append_assoc] <;> refine ⟨_, _, rfl, ?_⟩ <;>
      cases optional <;> simp only [chars_append, chars_lit, List.append_assoc]
    all_goals exact .of_symbol (by decide) _
  case h_3 quasi =>
    exact ⟨_, _, rfl, quoted _ _ rfl rfl rest⟩
  case h_4 =>
    exact ⟨0, [], by rw [atLeast_zero, List.append_nil]; rfl, ha⟩
  case h_5 operator _ =>
    simp only [pieces, List.append_assoc]
    refine ⟨_, _, rfl, ?_⟩
    simp only [chars_append, chars_lit, List.append_assoc]
    exact .of_operator (by cases operator <;> decide) (by cases operator <;> decide) _
  case h_6 operator _ =>
    simp only [pieces, List.append_assoc]
    refine ⟨_, _, rfl, ?_⟩
    simp only [chars_append, chars_lit, List.append_assoc]
    exact .of_operator (by cases operator <;> decide) (by cases operator <;> decide) _
  case h_7 operator _ =>
    simp only [pieces, List.append_assoc]
    refine ⟨0, _, congrArg (· ++ _) (atLeast_zero _).symm, ?_⟩
    simp only [chars_append, chars_lit, List.append_assoc]
    exact .of_operator (by cases operator <;> decide) (by cases operator <;> decide) _
  case h_8 =>
    simp only [pieces, List.append_assoc]
    refine ⟨_, _, rfl, ?_⟩
    simp only [chars_append, chars_lit, List.append_assoc]
    exact .of_symbol (by decide) _
  case h_9 operator =>
    refine ⟨_, _, rfl, ?_⟩
    rw [chars_lit]
    cases operator <;> exact .of_symbol (by decide) _
  case h_10 others =>
    refine ⟨_, _, separated_cons _ _ _, ?_⟩
    cases others with
    | nil => exact ha
    | cons second others =>
      simp only [List.map_cons, List.flatMap_cons, chars_append, chars_lit, List.append_assoc]
      exact .of_symbol (by decide) _

/-- The text of an expression that starts with no child, and with no brace or declaration. -/
theorem harmless_pieces (ht : Role.target.admitsExpression kind = true)
    (plain : kind.isPlain = true) (hleading : kind.leading? slots = none)
    (hm : kind ≠ .metaProperty)
    (hb : kind ≠ .objectExpression ∧ kind ≠ .objectPattern)
    (hdec : kind ≠ .classExpression ∧ ∀ async generator,
      kind ≠ .functionExpression async generator) {rest : List Char} (ha : Apart rest) :
    Harmless (chars indent level (pieces kind slots) ++ rest) := by
  have symbol {text : List Char} (starts : Apart.startsSymbol text = true) (rest : List Char) :
      Harmless (text ++ rest) := (Apart.of_symbol starts rest).harmless
  have phrase {text : List Char} (plain : isPlainText text = true)
      (ends : text.all isWordChar = false) (rest : List Char) : Harmless (text ++ rest) :=
    .of_text plain fun all => absurd all (by simp [ends])
  cases kind <;> cases ht <;> cases hl <;> (repeat cases ‹Slot.Fits _ _›)
  case metaProperty => exact absurd rfl hm
  case objectExpression => exact absurd rfl hb.1
  case objectPattern => exact absurd rfl hb.2
  case classExpression => exact absurd rfl hdec.1
  case functionExpression => exact absurd rfl (hdec.2 _ _)
  case sequenceExpression expressions =>
    cases expressions with
    | nil => exact ha.harmless
    | cons => cases hleading
  case updateExpression operator before _ =>
    cases before with
    | false => cases hleading
    | true =>
      simp only [pieces, chars_append, chars_lit, List.append_assoc]
      exact symbol (by cases operator <;> decide) _
  case literal raw regex _ =>
    cases regex with
    | none =>
      rw [pieces, chars_lit]
      exact .of_text plain fun _ c h => (ha.head c h).1
    | some regex =>
      simp only [pieces, chars_append, chars_lit, List.append_assoc]
      exact symbol (by decide) _
  case callExpression | memberExpression | taggedTemplateExpression | chainExpression
    | binaryExpression | logicalExpression | assignmentExpression | conditionalExpression =>
    cases hleading
  all_goals simp only [pieces, chars_append, chars_lit, chars_litIf, List.append_assoc]
  case identifier name =>
    simp only [Kind.isPlain, Bool.and_eq_true, bne_iff_ne] at plain
    obtain ⟨⟨⟨-, hn⟩, hfun⟩, hc⟩ := plain
    exact .of_name hn (mt String.toList_inj.mp hfun) (mt String.toList_inj.mp hc) ha
  case thisExpression | super => exact .of_text (by decide) fun _ c h => (ha.head c h).1
  case arrowFunctionExpression async _ _ =>
    cases async with
    | false => exact @symbol "(".toList (by decide) _
    | true =>
      have split : "async ".toList = "async".toList ++ " ".toList := by decide
      rw [if_pos rfl, split, List.append_assoc]
      refine .of_name (by decide) (by decide) (by decide) ?_
      rw [← List.append_assoc]
      exact .of_symbol (by decide) _
  case unaryExpression operator argument =>
    cases operator with
    | minus | plus | not | bitNot => exact symbol (by decide) _
    | typeof | void | delete =>
      exact .of_text (by decide) fun _ _ h => by cases h; decide
  case newExpression | awaitExpression | importExpression => exact phrase (by decide) (by decide) _
  case yieldExpression delegate argument =>
    cases delegate with
    | true => exact phrase (by decide) (by decide) _
    | false =>
      refine .of_text (by decide) fun _ c h => ?_
      cases argument with
      | none => exact (ha.head c h).1
      | some argument =>
        rw [given, chars_append, chars_lit] at h
        cases h
        decide
  all_goals exact symbol (by decide) _

end Template

namespace Node

variable {node : Node Nat} {indent : String} {level : Nat}

theorem pieces_plain (slots : List (Slot Part)) (hk : node.kind.isUnknown = false) :
    node.pieces slots .plain = Template.pieces node.kind slots := by
  unfold pieces
  split
  next eq => cases eq
  next eq => cases eq
  next hkind =>
    rw [hkind] at hk
    cases hk
  next => rfl

end Node

theorem Role.admitsExpression_target {kind : Kind} (hexp : kind.isExpression = true) :
    Role.target.admitsExpression kind = true := by
  simp [Role.admitsExpression, hexp]

/-- The children in a type that starts with one are expressions, or what an assignment changes. -/
theorem Kind.isTarget_of_leading? {α : Type} {kind : Kind} {slots : List (Slot α)}
    (leads : (kind.leading? slots).isSome = true) {field : String} {child : Kind}
    (ha : (kind.roleOf field).admitsExpression child = true) :
    Role.target.admitsExpression child = true := by
  have roles : kind.roleOf field = .expression ∨ kind.roleOf field = .target ∨
      kind.roleOf field = .template := by
    unfold leading? at leads
    split at leads
    case h_3 =>
      rw [roleOf]
      split <;> simp
    case h_7 =>
      rw [roleOf]
      split <;> simp
    case h_11 => cases leads
    all_goals exact .inl rfl
  rcases roles with hrole | hrole | hrole <;> rw [hrole] at ha
  · exact Role.admitsExpression_target ha
  · exact ha
  · rw [beq_iff_eq.mp ha]
    rfl

namespace Node

variable {node : Node Nat} {indent : String} {level : Nat}

theorem chars_plain_child (node : Node Nat) :
    Piece.chars indent level (Piece.plain node.part) = node.written indent level :=
  Piece.chars_plain node.part

theorem written_eq (hk : node.kind.isUnknown = false) :
    node.written indent level =
      Piece.chars indent level (Template.pieces node.kind node.parts) := by
  rw [written, chars_events, pieces_plain _ hk]

/-- A template starts with its quote. -/
theorem apart_template (hr : node.Regular) (quoted : node.kind = .templateLiteral)
    (rest : List Char) : Apart (node.written indent level ++ rest) := by
  have hf := fits_parts hr (congrArg Kind.fields? quoted)
  rw [written_eq (by rw [quoted]; rfl), quoted]
  generalize node.parts = slots at hf
  repeat cases ‹Slot.Fits _ _›
  simp only [Template.pieces, Piece.chars_append, Piece.chars_lit, List.append_assoc]
  exact .of_symbol (by decide) _

/-- A placeholder is a comment. -/
theorem harmless_unknown (hu : node.kind.isUnknown = true) (rest : List Char) :
    Harmless (node.written indent level ++ rest) := by
  unfold Kind.isUnknown at hu
  split at hu
  next typeName hk =>
    have comment : node.pieces node.parts .plain =
        Piece.lit ("/* Unknown: " ++ typeName ++ " */") ++
          node.descendants.map fun below => .share below.id node.id := by
      simp only [pieces, hk, Template.pieces]
    rw [written, chars_events, comment, Piece.chars_append, Piece.chars_lit, String.toList_append,
      String.toList_append, List.append_assoc, List.append_assoc, List.append_assoc]
    exact (Apart.of_symbol (by decide) _).harmless
  next => cases hu

section Leaders

variable (hr : node.Regular) (hleading : node.kind.leading? node.slots = none)
include hr hleading

omit hr in
theorem firstKind_of_noLeading : node.firstKind = node.kind := by
  rw [firstKind_eq, hleading]
  rfl

/-- An object starts with a brace, and is known to. -/
theorem announced_object (hobject : node.kind = .objectExpression ∨ node.kind = .objectPattern)
    (rest : List Char) : node.Announced (node.written indent level ++ rest) := by
  constructor
  · intro _
    rw [startsWithBrace, firstKind_of_noLeading hleading]
    rcases hobject with hk | hk <;> rw [hk]
  · have braces : ∃ parts, node.pieces node.parts .plain = Piece.braces parts := by
      rcases hobject with hk | hk <;>
        have hf := fits_parts hr (congrArg Kind.fields? hk) <;>
        generalize node.parts = slots at hf <;> (repeat cases ‹Slot.Fits _ _›) <;>
        simp only [pieces, hk, Template.pieces] <;> exact ⟨_, rfl⟩
    obtain ⟨parts, eq⟩ := braces
    have symbol : beginsDeclaration (node.written indent level ++ rest) = false := by
      rw [written, chars_events, eq, Piece.braces]
      split <;> simp only [Piece.chars_append, Piece.chars_lit, List.append_assoc]
      all_goals exact beginsDeclaration_append (by decide) _
    simp [symbol]

/-- A function or a class starts with a word, and is known to. -/
theorem announced_function (hd : node.kind = .classExpression ∨ ∃ async generator,
    node.kind = .functionExpression async generator) (rest : List Char) :
    node.Announced (node.written indent level ++ rest) := by
  constructor
  · have word : (node.written indent level ++ rest).head? ≠ some '\x7b' := by
      rcases hd with hk | ⟨async, generator, hk⟩ <;>
        have hf := fits_parts hr (congrArg Kind.fields? hk) <;>
        rw [written_eq (by rw [hk]; rfl), hk] <;>
        generalize node.parts = slots at hf <;> (repeat cases ‹Slot.Fits _ _›)
      · simp [Template.pieces, Template.classOf]
      · cases async <;> simp [Template.pieces, Template.function]
    exact fun starts => absurd starts word
  · intro _
    rw [startsWithDeclaration, firstKind_of_noLeading hleading]
    rcases hd with hk | ⟨async, generator, hk⟩ <;> rw [hk]

end Leaders

section Operands

variable (hr : ∀ below ∈ node.preorder, below.Regular)
  (hobeys : node.Obeys Role.admitsExpression)
include hr hobeys

/-- After a tag there is a quote. -/
theorem apart_quasi (tag quasi : Part) (tagged : node.kind = .taggedTemplateExpression)
    (shape : node.parts = [.one tag, .one quasi]) (rest : List Char) :
    Apart (Piece.chars indent level (Piece.plain quasi) ++ rest) := by
  have ho := hr node node.self_mem_preorder
  have hm : (("quasi", Arity.one), Slot.one quasi) ∈
      [("tag", Arity.one), ("quasi", Arity.one)].zip node.parts := by
    rw [shape]
    exact .tail _ List.mem_cons_self
  obtain ⟨edge, he, key, rfl⟩ :=
    exists_edge_of_part ho (congrArg Kind.fields? tagged) hm List.mem_cons_self
  have ha := hobeys node node.self_mem_preorder edge he
  rw [tagged, key] at ha
  rw [chars_plain_child]
  have hc := child_of_edge ho he
  exact edge.child.apart_template
    (hr _ (mem_preorder_of_child hc edge.child.self_mem_preorder))
    (beq_iff_eq.mp ha) rest

/-- A meta property starts with a name. -/
theorem harmless_meta (plain : ∀ below ∈ node.preorder, below.kind.isPlain = true)
    (hmeta : node.kind = .metaProperty) (rest : List Char) :
    Harmless (node.written indent level ++ rest) := by
  have hown := hr node node.self_mem_preorder
  have hf := fits_parts hown (congrArg Kind.fields? hmeta)
  have edges := @exists_edge_of_part node _ hown (congrArg Kind.fields? hmeta)
  rw [written_eq (by rw [hmeta]; rfl), hmeta]
  generalize node.parts = slots at hf edges
  repeat cases ‹Slot.Fits _ _›
  obtain ⟨edge, he, key, rfl⟩ := edges List.mem_cons_self List.mem_cons_self
  have hc := child_of_edge hown he
  have hm := mem_preorder_of_child hc edge.child.self_mem_preorder
  have hn := hobeys node node.self_mem_preorder edge he
  rw [hmeta, key] at hn
  simp only [Template.pieces, Piece.chars_append, Piece.chars_lit, List.append_assoc,
    chars_plain_child]
  cases hk : edge.child.kind with
  | identifier name =>
    have hown' := plain _ hm
    have hf' := fits_parts (hr _ hm) (congrArg Kind.fields? hk)
    rw [written_eq (by rw [hk]; rfl)]
    rw [hk] at hown' ⊢
    refine Template.harmless_pieces rfl hf' rfl hown' rfl ?_ ⟨?_, ?_⟩ ⟨?_, ?_⟩
      (.of_symbol (by decide) _) <;> simp
  | _ =>
    rw [hk] at hn
    cases hn

/-- The text of an expression starts as the node that it starts with tells. -/
theorem announced (plain : ∀ below ∈ node.preorder, below.kind.isPlain = true)
    (ht : Role.target.admitsExpression node.kind = true) {rest : List Char}
    (ha : Apart rest) : node.Announced (node.written indent level ++ rest) := by
  induction node using induction generalizing rest with
  | step node ih =>
    have ho := hr node node.self_mem_preorder
    have operand {edge : Edge (Node Nat)} (he : edge ∈ node.edges)
        (ht : Role.target.admitsExpression edge.child.kind = true) (rest : List Char)
        (ha : Apart rest) : edge.child.Announced (edge.child.written indent level ++ rest) := by
      have hc := child_of_edge ho he
      exact ih edge.child hc (fun below hm => hr below (mem_preorder_of_child hc hm))
        (hobeys.of_mem (child_mem_preorder hc))
        (fun below hm => plain below (mem_preorder_of_child hc hm)) ht ha
    cases hl : node.kind.fields? with
    | none => exact .of_harmless (harmless_unknown (Kind.fields?_eq_none.mp hl) rest)
    | some fields =>
      have hk : node.kind.isUnknown = false := by
        rw [← Bool.not_eq_true, ← Kind.fields?_eq_none, hl]
        nofun
      have hf := fits_parts ho hl
      cases leading : node.kind.leading? node.slots with
      | some child =>
        have hc : child ∈ node.children := Kind.mem_of_leading? leading
        rw [← map_child_edges ho] at hc
        obtain ⟨edge, he, rfl⟩ := List.mem_map.mp hc
        have ht := Kind.isTarget_of_leading? (by rw [leading]; rfl)
          (hobeys node node.self_mem_preorder edge he)
        have first : node.kind.leading? node.parts = some edge.child.part := by
          rw [parts, Kind.leading?_map, leading]
          rfl
        obtain ⟨least, tail, eq, ha⟩ :=
          Template.exists_operand hl hf first (apart_quasi hr hobeys) ha
        rw [written_eq hk, eq]
        exact .of_operand leading (operand he ht) ha
      | none =>
        by_cases hobject : node.kind = .objectExpression ∨ node.kind = .objectPattern
        · exact announced_object ho leading hobject rest
        by_cases hd : node.kind = .classExpression ∨ ∃ async generator,
            node.kind = .functionExpression async generator
        · exact announced_function ho leading hd rest
        by_cases hmeta : node.kind = .metaProperty
        · exact .of_harmless (harmless_meta hr hobeys plain hmeta rest)
        · have hleading : node.kind.leading? node.parts = none := by
            rw [parts, Kind.leading?_map, leading]
            rfl
          rw [written_eq hk]
          push Not at hobject hd
          exact .of_harmless (Template.harmless_pieces hl hf ht
            (plain node node.self_mem_preorder) hleading hmeta hobject hd ha)

end Operands

end Node

end SyntaxMarkup
