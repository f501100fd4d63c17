import SyntaxMarkup.Proofs.Layout.Characters
import SyntaxMarkup.Proofs.Layout.Renumbering
import SyntaxMarkup.Proofs.Tree.Numbering

namespace SyntaxMarkup

namespace Slot

variable {α β : Type} {f : α → β}

theorem exists_of_map_eq_one {slot : Slot α} {item : β} (h : slot.map f = .one item) :
    ∃ child, slot = .one child ∧ f child = item := by
  cases slot with
  | one child =>
    cases h
    exact ⟨child, rfl, rfl⟩
  | maybe | many | sparse => cases h

theorem exists_of_map_eq_many {slot : Slot α} {items : List β} (h : slot.map f = .many items) :
    ∃ children, slot = .many children ∧ children.map f = items := by
  cases slot with
  | many children =>
    cases h
    exact ⟨children, rfl, rfl⟩
  | one | maybe | sparse => cases h

theorem exists_of_map_eq_ones {slots : List (Slot α)} (items : List β)
    (h : slots.map (·.map f) = items.map .one) :
    ∃ children : List α, slots = children.map .one ∧
      List.Forall₂ (fun child item => f child = item) children items := by
  induction items generalizing slots with
  | nil => exact ⟨[], List.map_eq_nil_iff.mp h, .nil⟩
  | cons item items ih =>
    obtain ⟨slot, rest, rfl, first, others⟩ := List.map_eq_cons_iff.mp h
    obtain ⟨child, rfl, here⟩ := exists_of_map_eq_one first
    obtain ⟨children, rfl, each⟩ := ih others
    exact ⟨child :: children, rfl, .cons here each⟩

theorem exists_of_map_eq_singleton_many {slots : List (Slot α)} {items : List β}
    (h : slots.map (·.map f) = [.many items]) :
    ∃ children : List α, slots = [.many children] ∧ children.map f = items := by
  obtain ⟨slot, rfl, eq⟩ := List.map_eq_singleton_iff.mp h
  obtain ⟨children, rfl, each⟩ := exists_of_map_eq_many eq
  exact ⟨children, rfl, each⟩

end Slot

namespace Node

variable {ι : Type}

/-- A node without numbers and places in source text. -/
def bare (node : Node ι) : Node Unit :=
  node.rebuild (fun _ => ()) fun _ => none

theorem kind_bare (node : Node ι) : node.bare.kind = node.kind :=
  node.kind_rebuild _ _

theorem slots_bare (node : Node ι) : node.bare.slots = node.slots.map (·.map bare) :=
  node.slots_rebuild _ _

theorem startsWithBrace_bare (node : Node ι) : node.bare.startsWithBrace = node.startsWithBrace :=
  node.startsWithBrace_rebuild _ _

theorem startsWithDeclaration_bare (node : Node ι) :
    node.bare.startsWithDeclaration = node.startsWithDeclaration :=
  node.startsWithDeclaration_rebuild _ _

theorem containsCall_bare (node : Node ι) : node.bare.containsCall = node.containsCall :=
  node.containsCall_rebuild _ _

/-- A node without a number and a place is bare if its children are. -/
theorem bare_eq_self {kind : Kind} {fields : List (Field (Node Unit))}
    (same : ∀ child ∈ (Node.mk () kind none fields).children, child.bare = child) :
    (Node.mk () kind none fields).bare = .mk () kind none fields :=
  rebuild_eq_self rfl same

theorem bare_of_arguments {kind : Kind} {callee : Node Unit} {arguments : List (Node Unit)}
    {first second : String} (same : callee.bare = callee)
    (each : ∀ item ∈ arguments, item.bare = item) :
    (Node.mk () kind none [⟨first, .one callee⟩, ⟨second, .many arguments⟩]).bare =
      .mk () kind none [⟨first, .one callee⟩, ⟨second, .many arguments⟩] := by
  refine bare_eq_self fun child hm => ?_
  rcases List.mem_cons.mp hm with rfl | hm
  · exact same
  · exact each child (by simpa [Slot.children] using hm)

/-- Whether the nodes of an expression are written as a text, in every place. -/
def WrittenAs (indent : String) (expression : Node Unit) (text : List Char) : Prop :=
  ∀ node : Node Nat, node.bare = expression → ∀ place level,
    (node.events place level).flatMap (Event.chars indent) = text

section Writing

variable {indent : String} {expression : Node Unit} {text : List Char}

theorem WrittenAs.chars_plain (hw : expression.WrittenAs indent text) {node : Node Nat}
    (h : node.bare = expression) (level : Nat) :
    Piece.chars indent level (Piece.plain node.part) = text :=
  (Piece.chars_plain _).trans (hw node h .plain level)

theorem WrittenAs.chars_atLeast (hw : expression.WrittenAs indent text) {node : Node Nat}
    (h : node.bare = expression) (least : Strength) (level : Nat) :
    Piece.chars indent level (Piece.atLeast least node.part) =
      if expression.kind.strength < least then '(' :: text ++ [')'] else text := by
  have inside : (node.part.value .plain level).flatMap (Event.chars indent) = text :=
    hw node h .plain level
  rw [Piece.chars_atLeast, inside, node_part, ← node.kind_bare, h]

/-- Where an expression binds tightly enough, it needs no parentheses. -/
theorem WrittenAs.chars_operand (hw : expression.WrittenAs indent text) {node : Node Nat}
    (h : node.bare = expression) {least : Strength} (hs : least ≤ expression.kind.strength)
    (level : Nat) : Piece.chars indent level (Piece.atLeast least node.part) = text := by
  rw [hw.chars_atLeast h, if_neg (Nat.not_lt.mpr hs)]

/-- Arguments are written one by one, each as its own text. -/
theorem chars_arguments {α : Type} {node : α → Node Unit} {text : α → List Char} {items : List α}
    {children : List (Node Nat)} (same : children.map bare = items.map node)
    (each : ∀ item ∈ items, ∀ child : Node Nat, child.bare = node item → ∀ level,
      Piece.chars indent level (Piece.atLeast .assignment child.part) = text item) (level : Nat) :
    Piece.chars indent level (Piece.commas (children.map part)) = joined (items.map text) := by
  rw [Piece.chars_commas, List.map_map]
  refine congrArg joined ?_
  induction items generalizing children with
  | nil =>
    rw [List.map_eq_nil_iff.mp same]
    rfl
  | cons item rest ih =>
    obtain ⟨child, others, rfl, hi, same⟩ := List.map_eq_cons_iff.mp same
    obtain ⟨here, later⟩ := List.forall_mem_cons.mp each
    exact congrArg₂ List.cons (here child hi level) (ih same later)

theorem writtenAs_of_template (hu : expression.kind.isUniform)
    (chars : ∀ node : Node Nat, node.bare = expression → ∀ level,
      Piece.chars indent level (Template.pieces expression.kind node.parts) = text) :
    expression.WrittenAs indent text := by
  intro node h place level
  have hk : node.kind = expression.kind := by
    rw [← h, kind_bare]
  rw [chars_events, pieces_of_uniform (hk ▸ hu), hk, chars node h level]

/-- If each child of an expression has a slot of its own, then its template is what counts. -/
theorem writtenAs_of_operands (hu : expression.kind.isUniform) (operands : List (Node Unit))
    (slots : expression.slots = operands.map .one)
    (chars : ∀ level (children : List (Node Nat)),
      List.Forall₂ (fun child operand => child.bare = operand) children operands →
        Piece.chars indent level
          (Template.pieces expression.kind (children.map fun child => .one child.part)) = text) :
    expression.WrittenAs indent text := by
  refine writtenAs_of_template hu fun node h level => ?_
  rw [← h, slots_bare] at slots
  obtain ⟨children, shape, each⟩ := Slot.exists_of_map_eq_ones _ slots
  rw [Node.parts, shape, List.map_map]
  exact chars level children each

/-- A callee and arguments: the template counts, once it is known what the arguments are. -/
theorem writtenAs_of_arguments {α : Type} {node : α → Node Unit} {itemText : α → List Char}
    (hu : expression.kind.isUniform) {callee : Node Unit} {items : List α}
    (slots : expression.slots = [.one callee, .many (items.map node)])
    (each : ∀ item ∈ items, ∀ child : Node Nat, child.bare = node item → ∀ level,
      Piece.chars indent level (Piece.atLeast .assignment child.part) = itemText item)
    (chars : ∀ level (child : Node Nat) (arguments : List Part), child.bare = callee →
      Piece.chars indent level (Piece.commas arguments) = joined (items.map itemText) →
        Piece.chars indent level
          (Template.pieces expression.kind [.one child.part, .many arguments]) = text) :
    expression.WrittenAs indent text := by
  refine writtenAs_of_template hu fun parent h level => ?_
  rw [← h, slots_bare] at slots
  obtain ⟨_, _, shape, first, slots⟩ := List.map_eq_cons_iff.mp slots
  obtain ⟨_, rfl, second⟩ := List.map_eq_singleton_iff.mp slots
  obtain ⟨child, rfl, hc⟩ := Slot.exists_of_map_eq_one first
  obtain ⟨children, rfl, areArguments⟩ := Slot.exists_of_map_eq_many second
  rw [Node.parts, shape]
  exact chars level child _ hc (chars_arguments areArguments each level)

end Writing

/-- A statement of an expression. -/
def statement (expression : Node Unit) (directive : Option String) : Node Unit :=
  .mk () (.expressionStatement directive) none [⟨"expression", .one expression⟩]

def program (expression : Node Unit) (sourceType : SourceType) (directive : Option String) :
    Node Unit :=
  .mk () (.program sourceType) none [⟨"body", .many [expression.statement directive]⟩]

theorem bare_program (expression : Node Unit) (sourceType : SourceType)
    (directive : Option String) : (expression.program sourceType directive).bare =
      expression.bare.program sourceType directive := by
  have inner : (expression.statement directive).bare = expression.bare.statement directive := by
    rw [bare, rebuild_eq]
    rfl
  rw [bare, rebuild_eq, Node.program, Node.program, ← inner]
  rfl

section Program

variable {indent : String} {expression : Node Unit} {text : List Char}

theorem WrittenAs.statement (hw : expression.WrittenAs indent text)
    (hs : Strength.sequence ≤ expression.kind.strength)
    (plain : (expression.startsWithBrace || expression.startsWithDeclaration) = false)
    (directive : Option String) :
    (expression.statement directive).WrittenAs indent (text ++ [';']) := by
  refine writtenAs_of_operands rfl [expression] rfl fun level children each => ?_
  obtain - | @⟨child, _, _, _, hnode, ⟨⟩⟩ := each
  have starts : (child.startsWithBrace || child.startsWithDeclaration) = false := by
    rw [← startsWithBrace_bare, ← startsWithDeclaration_bare, hnode, plain]
  have pieces : Template.pieces (.expressionStatement directive) [.one child.part] =
      Piece.atLeast .sequence child.part ++ Piece.lit ";" := by
    simp [Template.pieces, starts]
  change Piece.chars indent level
    (Template.pieces (.expressionStatement directive) [.one child.part]) = _
  rw [pieces, Piece.chars_append, Piece.chars_lit, hw.chars_operand hnode hs]
  rfl

theorem WrittenAs.chars_program (hw : expression.WrittenAs indent text)
    (hs : Strength.sequence ≤ expression.kind.strength)
    (plain : (expression.startsWithBrace || expression.startsWithDeclaration) = false)
    {sourceType : SourceType} {directive : Option String} {node : Node Nat}
    (h : node.bare = expression.program sourceType directive) :
    (node.events .plain 0).flatMap (Event.chars indent) = text ++ [';'] := by
  have hk : node.kind = .program sourceType := by
    rw [← node.kind_bare, h]
    rfl
  have slots : node.slots.map (·.map bare) = [.many [expression.statement directive]] := by
    rw [← slots_bare, h]
    rfl
  obtain ⟨children, shape, each⟩ := Slot.exists_of_map_eq_singleton_many slots
  obtain ⟨child, rfl, hnode⟩ := List.map_eq_singleton_iff.mp each
  have pieces : node.pieces node.parts .plain = .pad 0 :: Piece.plain child.part := by
    rw [Node.parts, shape]
    simp [Node.pieces, hk, Template.pieces, Slot.map, Piece.lines, Piece.separated]
  have inside := (hw.statement hs plain directive).chars_plain hnode 0
  rw [Node.chars_events, pieces, ← inside]
  simp [Piece.chars, Piece.events, Event.chars]

end Program

end Node

namespace Tree

/-- Whether a tree is a program whose only statement is of an expression, numbers and places in
source text aside. -/
def States (tree : Tree) (expression : Node Unit) : Prop :=
  ∃ sourceType directive, tree.content.bare = expression.program sourceType directive

theorem text_render_of_states {tree : Tree} {expression : Node Unit} {text : List Char}
    {options : RenderOptions} (hstates : tree.States expression)
    (hw : expression.WrittenAs options.indent text)
    (hs : Strength.sequence ≤ expression.kind.strength)
    (plain : (expression.startsWithBrace || expression.startsWithDeclaration) = false) :
    (tree.render options).text.toList = text ++ [';'] := by
  obtain ⟨sourceType, directive, same⟩ := hstates
  have hn : tree.root.bare = expression.program sourceType directive := by
    rw [← same]
    exact Node.rebuild_number _ _ _
  rw [text_render]
  exact hw.chars_program hs plain hn

end Tree

end SyntaxMarkup
