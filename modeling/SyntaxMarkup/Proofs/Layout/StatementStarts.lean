import SyntaxMarkup.Proofs.Layout.Beginnings

namespace SyntaxMarkup

namespace Role

variable {kind : Kind}

theorem isExpression_of_arrowBody (ha : arrowBody.admitsExpression kind = true)
    (hblock : kind ≠ .blockStatement) : kind.isExpression = true := by
  rcases Bool.or_eq_true_iff.mp ha with hexp | hb
  · exact hexp
  · exact absurd (beq_iff_eq.mp hb) hblock

theorem isExpression_of_defaultExport (ha : defaultExport.admitsExpression kind = true)
    (hc : kind ≠ .classDeclaration)
    (hfun : ∀ async generator, kind ≠ .functionDeclaration async generator) :
    kind.isExpression = true := by
  rcases Bool.or_eq_true_iff.mp ha with declared | hf
  · rcases Bool.or_eq_true_iff.mp declared with hexp | hclass
    · exact hexp
    · exact absurd (beq_iff_eq.mp hclass) hc
  · split at hf
    next => exact absurd rfl (hfun _ _)
    next => cases hf

end Role

namespace Kind

theorem not_isProgram_of_isExpression {kind : Kind} (hexp : kind.isExpression = true) :
    kind.isProgram = false := by
  cases kind <;> first | rfl | cases hexp

/-- No operand is strong enough to stand bare where a guard asks for parentheses. -/
theorem strength_lt_guarded (kind : Kind) {guard : Bool} (hg : guard = true)
    (least : Strength) : kind.strength < if guard then .parenthesized else least := by
  rw [if_pos hg]
  exact kind.strength_lt_parenthesized

end Kind

theorem Event.chars_calls (indent : String) (events : List Event) :
    ((calls indent events).filterMap MarkupCall.text?).flatMap String.toList =
      events.flatMap (chars indent) := by
  induction events with
  | nil => rfl
  | cons event rest ih =>
    rw [List.flatMap_cons, ← ih]
    cases event <;> rfl

namespace Tree

variable {tree : Tree} {options : RenderOptions}

/-- The text of a unit is what its node writes. -/
theorem Stands.toList_unitText (hr : tree.Regular) {node : Node Nat} {place : Place}
    {level : Nat} (hs : tree.Stands node place level)
    (hp : node.kind.isProgram = false) {u : Nat}
    (hown : (tree.render options).nodeFor? u = some node.id) :
    ((tree.render options).unitText u).toList =
      (node.events place level).flatMap (Event.chars options.indent) := by
  obtain ⟨v, unit, hf, hn, -, text⟩ := hs.exists_unit hr hp options
  have hown' : (tree.render options).nodeFor? v = some node.id := by
    rw [Document.nodeFor?, hf]
    exact hn
  rw [eq_of_nodeFor? hr hown hown', text, String.toList_join, Event.chars_calls]

end Tree

namespace Node

variable {node : Node Nat} {indent : String} {level : Nat}
  {child : Node Nat} {least : Strength} {rest : List Char}

theorem head?_operand (hann : child.Announced (child.written indent level ++ rest))
    (guarded : child.startsWithBrace = true → child.kind.strength < least) :
    (Piece.chars indent level (Piece.atLeast least child.part) ++ rest).head? ≠ some '\x7b' := by
  rw [chars_operand]
  split
  next => simp
  next bare => exact fun starts => bare (guarded (hann.brace starts))

theorem beginsDeclaration_operand
    (hann : child.Announced (child.written indent level ++ rest))
    (guarded : child.startsWithDeclaration = true → child.kind.strength < least) :
    beginsDeclaration (Piece.chars indent level (Piece.atLeast least child.part) ++ rest) =
      false := by
  rw [chars_operand]
  split
  next =>
    rw [List.append_assoc]
    exact @beginsDeclaration_append ['('] (by decide) _
  next bare =>
    rw [← Bool.not_eq_true]
    exact fun starts => bare (guarded (hann.declaration starts))

section Positions

variable (hr : ∀ below ∈ node.preorder, below.Regular)
  (hobeys : node.Obeys Role.admitsExpression)
  (plain : ∀ below ∈ node.preorder, below.kind.isPlain = true)
include hr hobeys plain

theorem announced_child {edge : Edge (Node Nat)} (he : edge ∈ node.edges)
    (hexp : edge.child.kind.isExpression = true) (ha : Apart rest) :
    edge.child.Announced (edge.child.written indent level ++ rest) := by
  have hc := child_of_edge (hr node node.self_mem_preorder) he
  exact edge.child.announced (fun below hm => hr below (mem_preorder_of_child hc hm))
    (hobeys.of_mem (child_mem_preorder hc))
    (fun below hm => plain below (mem_preorder_of_child hc hm))
    (Role.admitsExpression_target hexp) ha

/-- A statement of an expression starts neither a block nor a declaration. -/
theorem harmless_statement {directive : Option String}
    (hstates : node.kind = .expressionStatement directive) (place : Place) :
    Harmless ((node.events place level).flatMap (Event.chars indent)) := by
  have ho := hr node node.self_mem_preorder
  have hl := congrArg Kind.fields? hstates
  have hf := fits_parts ho hl
  have edges := @exists_edge_of_part node _ ho hl
  rw [chars_events]
  simp only [pieces, hstates]
  generalize node.parts = slots at hf edges
  repeat cases ‹Slot.Fits _ _›
  obtain ⟨edge, he, -, rfl⟩ := edges List.mem_cons_self List.mem_cons_self
  have hexp := hobeys node node.self_mem_preorder edge he
  rw [hstates] at hexp
  have hann : edge.child.Announced (edge.child.written indent level ++ ";".toList) :=
    announced_child hr hobeys plain he hexp
      (@Apart.of_symbol ";".toList (by decide) [])
  rw [Template.pieces, Piece.chars_append, Piece.chars_lit]
  exact ⟨head?_operand hann fun starts =>
      edge.child.kind.strength_lt_guarded (Bool.or_eq_true_iff.mpr (.inl starts)) _,
    beginsDeclaration_operand hann fun starts =>
      edge.child.kind.strength_lt_guarded (Bool.or_eq_true_iff.mpr (.inr starts)) _⟩

/-- What stands after the arrow of a function starts no block. -/
theorem exists_body {edge : Edge (Node Nat)} (he : edge ∈ node.edges) {async : Bool}
    (arrow : node.kind = .arrowFunctionExpression async) (hbody : edge.key = "body")
    (hexp : edge.child.kind.isExpression = true) (place : Place) :
    ∃ front least, node.pieces node.parts place =
        front ++ Piece.lit ") => " ++ Piece.atLeast least edge.child.part ∧
      (Piece.chars indent level (Piece.atLeast least edge.child.part)).head? ≠ some '\x7b' := by
  have ho := hr node node.self_mem_preorder
  have hl := congrArg Kind.fields? arrow
  have hf := fits_parts ho hl
  obtain ⟨entry, hm, key, hslot⟩ := exists_part_of_edge ho hl he
  have hann : edge.child.Announced (edge.child.written indent level ++ []) :=
    announced_child hr hobeys plain he hexp .nil
  have first := head?_operand hann fun starts =>
    edge.child.kind.strength_lt_guarded starts .assignment
  rw [List.append_nil] at first
  simp only [pieces, arrow]
  generalize node.parts = slots at hf hm
  repeat cases ‹Slot.Fits _ _›
  rcases List.mem_cons.mp hm with rfl | hm
  · simp [hbody] at key
  · obtain rfl := List.mem_singleton.mp hm
    obtain rfl := List.mem_singleton.mp hslot
    exact ⟨_, _, rfl, first⟩

/-- What is exported by default without a declaration starts none. -/
theorem exists_default {edge : Edge (Node Nat)} (he : edge ∈ node.edges)
    (exports : node.kind = .exportDefaultDeclaration)
    (hexp : edge.child.kind.isExpression = true) (place : Place) :
    ∃ tail, (node.events place level).flatMap (Event.chars indent) =
      "export default ".toList ++ tail ∧ beginsDeclaration tail = false := by
  have ho := hr node node.self_mem_preorder
  have hl := congrArg Kind.fields? exports
  have hf := fits_parts ho hl
  obtain ⟨entry, hm, -, hslot⟩ := exists_part_of_edge ho hl he
  have hann : edge.child.Announced (edge.child.written indent level ++ ";".toList) :=
    announced_child hr hobeys plain he hexp
      (@Apart.of_symbol ";".toList (by decide) [])
  have first := beginsDeclaration_operand hann fun starts =>
    edge.child.kind.strength_lt_guarded starts .assignment
  rw [chars_events]
  simp only [pieces, exports]
  generalize node.parts = slots at hf hm
  repeat cases ‹Slot.Fits _ _›
  obtain rfl := List.mem_singleton.mp hm
  obtain rfl := List.mem_singleton.mp hslot
  rw [Template.pieces, Piece.chars_append, Piece.chars_lit]
  refine ⟨_, rfl, ?_⟩
  split
  next hk => rw [show edge.child.kind = _ from hk] at hexp; cases hexp
  next hk => rw [show edge.child.kind = _ from hk] at hexp; cases hexp
  next =>
    rw [Piece.chars_append, Piece.chars_lit]
    exact first

end Positions

end Node

namespace Tree

variable {tree : Tree} {options : RenderOptions}

/-- In the text of an arrow function its body follows the arrow, in parentheses or not, and starts
no block. -/
theorem Stands.exists_body (hr : tree.Regular) {node : Node Nat} {place : Place} {level : Nat}
    (hstands : tree.Stands node place level) (hobeys : node.Obeys Role.admitsExpression)
    (plain : ∀ below ∈ node.preorder, below.kind.isPlain = true) {edge : Edge (Node Nat)}
    (he : edge ∈ node.edges) {async : Bool}
    (arrow : node.kind = .arrowFunctionExpression async) (hbody : edge.key = "body")
    (hexp : edge.child.kind.isExpression = true) :
    ∃ w front body, (tree.render options).nodeFor? w = some edge.child.id ∧
      (node.events place level).flatMap (Event.chars options.indent) =
        front ++ "=> ".toList ++ body ∧
      (body = ((tree.render options).unitText w).toList ∨
        body = '(' :: ((tree.render options).unitText w).toList ++ [')']) ∧
      body.head? ≠ some '\x7b' := by
  have hr' (below) (hb : below ∈ node.preorder) : below.Regular :=
    hr below (Node.mem_preorder_trans (hstands.mem_preorder hr) hb)
  obtain ⟨front, least, eq, first⟩ := @Node.exists_body node options.indent level hr' hobeys
    plain edge he async arrow hbody hexp place
  have hw : .child edge.child.part .plain 0 ∈ node.pieces node.parts place := by
    rw [eq]
    refine List.mem_append_right _ ?_
    unfold Piece.atLeast
    split <;> simp [Piece.lit, Piece.plain]
  have hstands' := hstands.of_piece hr hw
  have hp := Kind.not_isProgram_of_isExpression hexp
  obtain ⟨w, unit, hu, hn, -⟩ := hstands'.exists_unit hr hp options
  have ho : (tree.render options).nodeFor? w = some edge.child.id := by
    rw [Document.nodeFor?, hu]
    exact hn
  refine ⟨w, Piece.chars options.indent level front ++ ") ".toList,
    Piece.chars options.indent level (Piece.atLeast least edge.child.part), ho, ?_, ?_, first⟩
  · rw [Node.chars_events, eq, Piece.chars_append, Piece.chars_append, Piece.chars_lit,
      show ") => ".toList = ") ".toList ++ "=> ".toList by decide, ← List.append_assoc]
  · rw [hstands'.toList_unitText hr hp ho, Node.chars_operand]
    split
    · exact .inr rfl
    · exact .inl rfl

/-- A statement of an expression starts neither a block nor a declaration, what follows an arrow
starts no block unless it is one, and what is exported by default starts no declaration unless it is
one. -/
theorem harmless_of_ofJson {value : Json} (h : Tree.ofJson value = .ok tree)
    (obeys : tree.obeys Role.admitsExpression = true)
    (plain : (tree.root.preorder.all fun node => node.kind.isPlain) = true) {u id : Nat}
    {node : Node Nat} (found : tree.node? id = some node)
    (own : (tree.render options).nodeFor? u = some id) :
    (∀ directive, node.kind = .expressionStatement directive →
      Harmless ((tree.render options).unitText u).toList) ∧
    (∀ async, node.kind = .arrowFunctionExpression async → ∀ edge ∈ node.edges,
      edge.key = "body" → edge.child.kind ≠ .blockStatement →
      ∃ w front body, (tree.render options).nodeFor? w = some edge.child.id ∧
        ((tree.render options).unitText u).toList = front ++ "=> ".toList ++ body ∧
        (body = ((tree.render options).unitText w).toList ∨
          body = '(' :: ((tree.render options).unitText w).toList ++ [')']) ∧
        body.head? ≠ some '\x7b') ∧
    (node.kind = .exportDefaultDeclaration → ∀ edge ∈ node.edges,
      edge.child.kind ≠ .classDeclaration →
      (∀ async generator, edge.child.kind ≠ .functionDeclaration async generator) →
      ∃ tail, ((tree.render options).unitText u).toList = "export default ".toList ++ tail ∧
        beginsDeclaration tail = false) := by
  have hr := regular_of_ofJson h
  obtain ⟨other, place, level, hs, rfl, hp⟩ := exists_stands_of_nodeFor? hr own
  have hm := hs.mem_preorder hr
  obtain rfl : other = node := Option.some.inj ((node?_id hm).symm.trans found)
  have hr' (below) (hb : below ∈ other.preorder) : below.Regular :=
    hr below (Node.mem_preorder_trans hm hb)
  have hobeys' := obeys_of_mem obeys hm
  have plain' (below) (hb : below ∈ other.preorder) : below.kind.isPlain = true :=
    List.all_eq_true.mp plain below (Node.mem_preorder_trans hm hb)
  rw [hs.toList_unitText hr hp own]
  refine ⟨fun directive hstates => Node.harmless_statement hr' hobeys' plain' hstates place, ?_, ?_⟩
  · intro async arrow edge he hbody hblock
    have ha := hobeys' other other.self_mem_preorder edge he
    rw [arrow, hbody] at ha
    exact hs.exists_body hr hobeys' plain' he arrow hbody
      (Role.isExpression_of_arrowBody ha hblock)
  · intro exports edge he hc hfun
    have ha := hobeys' other other.self_mem_preorder edge he
    rw [exports] at ha
    exact Node.exists_default hr' hobeys' plain' he exports
      (Role.isExpression_of_defaultExport ha hc hfun) place

def callSample : Json :=
  .ofNode "Program" [("body", .array [.ofNode "ExpressionStatement" [("expression",
    .ofNode "CallExpression" [("callee", .ofNode "FunctionExpression" [("params", .array []),
      ("body", .ofNode "BlockStatement" [("body", .array [])])]), ("arguments", .array [])])]])]

/-- The call of a function is in parentheses: `(function () {}());`. -/
theorem harmless_of_callSample :
    ∃ tree node, Tree.ofJson callSample = .ok tree ∧
      tree.obeys Role.admitsExpression = true ∧
      (tree.root.preorder.all fun node => node.kind.isPlain) = true ∧
      tree.node? 3 = some node ∧ (tree.render {}).nodeFor? 0 = some 3 ∧
      node.kind = .expressionStatement none ∧
      Harmless ((tree.render {}).unitText 0).toList := by
  obtain ⟨tree, hj, facts⟩ := exists_of_ofJson
    (f := fun tree => (tree.obeys Role.admitsExpression,
      tree.root.preorder.all fun node => node.kind.isPlain,
      (tree.node? 3).any fun node => node.kind == .expressionStatement none,
      (tree.render {}).nodeFor? 0))
    (b := (true, true, true, some 3))
    (by decide +kernel : (ofJson callSample).toOption.map _ = some _)
  simp only [Prod.mk.injEq, Option.any_eq_true, beq_iff_eq] at facts
  obtain ⟨hobeys, plain, ⟨node, hf, hstates⟩, ho⟩ := facts
  obtain ⟨harmless, -⟩ := harmless_of_ofJson hj hobeys plain hf ho
  exact ⟨tree, node, hj, hobeys, plain, hf, ho, hstates, harmless none hstates⟩

def tagSample : Json :=
  .ofNode "Program" [("body", .array [.ofNode "ExpressionStatement" [("expression",
    .ofNode "TaggedTemplateExpression" [("tag", .ofNode "Identifier" [("name", .string "func")]),
      ("quasi", .ofNode "Identifier" [("name", .string "tion")])])]])]

/-- A tag and what stands for its template are written side by side, so a statement may start with
`function` if that is no template. -/
theorem not_harmless_of_tag :
    ∃ tree node, Tree.ofJson tagSample = .ok tree ∧
      (tree.obeys fun role kind =>
        if role = .template then kind.isExpression else role.admitsExpression kind) = true ∧
      (tree.root.preorder.all fun node => node.kind.isPlain) = true ∧
      tree.node? 3 = some node ∧ (tree.render {}).nodeFor? 0 = some 3 ∧
      node.kind = .expressionStatement none ∧
      (tree.render {}).unitText 0 = "function;" ∧
      ¬ Harmless ((tree.render {}).unitText 0).toList := by
  obtain ⟨tree, hj, facts⟩ := exists_of_ofJson
    (f := fun tree => (tree.obeys (fun role kind =>
        if role = .template then kind.isExpression else role.admitsExpression kind),
      tree.root.preorder.all fun node => node.kind.isPlain,
      (tree.node? 3).any fun node => node.kind == .expressionStatement none,
      (tree.render {}).nodeFor? 0, (tree.render {}).unitText 0))
    (b := (true, true, true, some 3, "function;"))
    (by decide +kernel : (ofJson tagSample).toOption.map _ = some _)
  simp only [Prod.mk.injEq, Option.any_eq_true, beq_iff_eq] at facts
  obtain ⟨hobeys, plain, ⟨node, hf, hstates⟩, ho, text⟩ := facts
  refine ⟨tree, node, hj, hobeys, plain, hf, ho, hstates, text, fun harmless => ?_⟩
  rw [text] at harmless
  exact absurd harmless.declaration (by decide)

end Tree

end SyntaxMarkup
