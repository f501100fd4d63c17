import SyntaxMarkup.Proofs.Access.Statement
import SyntaxMarkup.Proofs.Creation.Text

namespace SyntaxMarkup

namespace Creation

theorem call_le_strength (creation : Creation) :
    Strength.call ≤ creation.node.kind.strength := by
  rw [kind_node]
  cases creation with
  | name => exact (by decide : Strength.call ≤ Strength.primary)
  | member | index | call | create => exact Nat.le_refl Strength.call

theorem starts_plain (creation : Creation) :
    (creation.node.startsWithBrace || creation.node.startsWithDeclaration) = false := by
  have plain : creation.node.firstKind = .newExpression ∨
      ∃ name, creation.node.firstKind = .identifier name := by
    induction creation with
    | name content => exact .inr ⟨content.text, Node.firstKind_eq _⟩
    | member object property ih =>
      rw [Node.firstKind_eq]
      exact ih
    | index object key ih =>
      rw [Node.firstKind_eq]
      exact ih
    | call callee arguments ih =>
      rw [node_call, Node.firstKind_eq]
      exact ih
    | create callee arguments =>
      rw [node_create, Node.firstKind_eq]
      exact .inl rfl
  unfold Node.startsWithBrace Node.startsWithDeclaration
  rcases plain with first | ⟨name, first⟩ <;> rw [first] <;> rfl

section Characters

variable {indent : String}

theorem chars_operand {creation : Creation}
    (hw : creation.node.WrittenAs indent creation.text) {child : Node Nat}
    (h : child.bare = creation.node) {least : Strength} (weak : least ≤ .call) (level : Nat) :
    Piece.chars indent level (Piece.atLeast least child.part) = creation.text :=
  hw.chars_operand h (Nat.le_trans weak creation.call_le_strength) level

theorem chars_callee {callee : Creation} (hw : callee.node.WrittenAs indent callee.text)
    {child : Node Nat} (h : child.bare = callee.node) (level : Nat) :
    Piece.chars indent level
      (Piece.atLeast (if child.containsCall then .parenthesized else .call) child.part) =
        callee.calleeText := by
  have calls : child.containsCall = callee.calls := by
    rw [← child.containsCall_bare, h, containsCall_node]
  rw [calls, calleeText]
  split
  · rw [hw.chars_atLeast h, if_pos (Kind.strength_lt_parenthesized _)]
  · exact chars_operand hw h (Nat.le_refl _) level

theorem written_member {object : Creation} (hw : object.node.WrittenAs indent object.text)
    (property : BareName) :
    (member object property).node.WrittenAs indent (member object property).text := by
  refine Node.writtenAs_of_operands rfl [object.node, nameNode property] rfl
    fun level children each => ?_
  obtain - | @⟨first, _, _, _, hobject, - | @⟨second, _, _, _, hp, ⟨⟩⟩⟩ := each
  have hi : first.kind.isBareInteger = false := by
    rw [← first.kind_bare, hobject, kind_node]
    cases object <;> rfl
  change Piece.chars indent level (
    Piece.atLeast (if first.kind.isBareInteger then .parenthesized else .call) first.part ++
      Piece.lit "." ++ Piece.plain second.part) = _
  rw [hi, Piece.chars_append, Piece.chars_append, Piece.chars_lit,
    (Access.written_name property.toPlainName).chars_plain hp]
  have objectText : Piece.chars indent level (Piece.atLeast .call first.part) = object.text :=
    chars_operand hw hobject (Nat.le_refl _) level
  simp [objectText, text, fold]

theorem written_index {object key : Creation} (hw : object.node.WrittenAs indent object.text)
    (writtenKey : key.node.WrittenAs indent key.text) :
    (index object key).node.WrittenAs indent (index object key).text := by
  refine Node.writtenAs_of_operands rfl [object.node, key.node] rfl fun level children each => ?_
  obtain - | @⟨first, _, _, _, hobject, - | @⟨second, _, _, _, hk, ⟨⟩⟩⟩ := each
  change Piece.chars indent level (Piece.atLeast .call first.part ++ Piece.lit "[" ++
    Piece.atLeast .sequence second.part ++ Piece.lit "]") = _
  simp only [Piece.chars_append, Piece.chars_lit, chars_operand hw hobject (Nat.le_refl _),
    chars_operand writtenKey hk (by decide : Strength.sequence ≤ Strength.call)]
  simp [text, fold]

section Arguments

variable {callee : Creation} (hw : callee.node.WrittenAs indent callee.text)
  {arguments : List Creation} (each : ∀ item ∈ arguments, item.node.WrittenAs indent item.text)
include hw each

theorem written_call :
    (call callee arguments).node.WrittenAs indent (call callee arguments).text := by
  rw [node_call]
  refine Node.writtenAs_of_arguments rfl rfl
    (fun item hm child hi => chars_operand (each item hm) hi (by decide))
    fun level child parts hc items => ?_
  change Piece.chars indent level (Piece.atLeast .call child.part ++ [] ++
    Piece.lit "(" ++ Piece.commas parts ++ Piece.lit ")") = _
  simp only [Piece.chars_append, Piece.chars_lit, List.append_nil,
    chars_operand hw hc (Nat.le_refl _), items]
  rw [text_call]
  simp [Step.text]

theorem written_create :
    (create callee arguments).node.WrittenAs indent (create callee arguments).text := by
  rw [node_create]
  refine Node.writtenAs_of_arguments rfl rfl
    (fun item hm child hi => chars_operand (each item hm) hi (by decide))
    fun level child parts hc items => ?_
  change Piece.chars indent level (Piece.lit "new " ++
    Piece.atLeast (if child.containsCall then .parenthesized else .call) child.part ++
      Piece.lit "(" ++ Piece.commas parts ++ Piece.lit ")") = _
  simp only [Piece.chars_append, Piece.chars_lit, chars_callee hw hc, items]
  rw [text_create]
  simp [Head.text]

end Arguments

theorem written (creation : Creation) : creation.node.WrittenAs indent creation.text := by
  induction creation with
  | name content => exact Access.written_name content.toPlainName
  | member object property ih => exact written_member ih property
  | index object key ih ihKey => exact written_index ih ihKey
  | call callee arguments ih each => exact written_call ih each
  | create callee arguments ih each => exact written_create ih each

end Characters

/-- A creation as a JSON value. -/
def json : Creation → Json :=
  fold (fun content => Access.nameJson content.toPlainName)
    (fun object property => .ofNode "MemberExpression" [("object", object),
      ("property", Access.nameJson property.toPlainName), ("computed", .bool false)])
    (fun object key => .ofNode "MemberExpression" [("object", object), ("property", key),
      ("computed", .bool true)])
    (fun callee arguments => .ofNode "CallExpression" [("callee", callee),
      ("arguments", .array arguments)])
    fun _ callee arguments => .ofNode "NewExpression" [("callee", callee),
      ("arguments", .array arguments)]

theorem lowers (creation : Creation) : creation.json.Lowers creation.node := by
  induction creation with
  | name content => exact ⟨rfl, rfl⟩
  | member object property ih =>
    have name : (Access.nameJson property.toPlainName).Lowers (nameNode property) := ⟨rfl, rfl⟩
    exact NodeObject.lowers_of_fills rfl rfl rfl rfl
      (.cons (.one rfl ih) (.cons (.one rfl name) .nil))
  | index object key ih ihKey =>
    exact NodeObject.lowers_of_fills rfl rfl rfl rfl
      (.cons (.one rfl ih) (.cons (.one rfl ihKey) .nil))
  | call callee arguments ih each =>
    have items : List.Forall₂ Json.Lowers (arguments.map json) (arguments.map node) :=
      List.forall₂_map_left_iff.mpr (List.forall₂_map_right_iff.mpr (List.forall₂_same.mpr each))
    rw [json, fold_call, node_call]
    exact NodeObject.lowers_of_fills rfl rfl rfl rfl
      (.cons (.one rfl ih) (.cons (.many rfl items) .nil))
  | create callee arguments ih each =>
    have items : List.Forall₂ Json.Lowers (arguments.map json) (arguments.map node) :=
      List.forall₂_map_left_iff.mpr (List.forall₂_map_right_iff.mpr (List.forall₂_same.mpr each))
    rw [json, fold_create, node_create]
    exact NodeObject.lowers_of_fills rfl rfl rfl rfl
      (.cons (.one rfl ih) (.cons (.many rfl items) .nil))

theorem bare_node (creation : Creation) : creation.node.bare = creation.node := by
  induction creation with
  | name => rfl
  | member object property ih =>
    have name : (nameNode property).bare = nameNode property := rfl
    exact Node.bare_eq_self (List.forall_mem_cons.mpr ⟨ih, List.forall_mem_singleton.mpr name⟩)
  | index object key ih ihKey =>
    exact Node.bare_eq_self (List.forall_mem_cons.mpr ⟨ih, List.forall_mem_singleton.mpr ihKey⟩)
  | call callee arguments ih each =>
    rw [node_call]
    exact Node.bare_of_arguments ih (List.forall_mem_map.mpr each)
  | create callee arguments ih each =>
    rw [node_create]
    exact Node.bare_of_arguments ih (List.forall_mem_map.mpr each)

end Creation

namespace Tree

theorem text_render_of_creation {tree : Tree} {creation : Creation}
    (hstates : tree.States creation.node) (options : RenderOptions) :
    (tree.render options).text.toList = creation.text ++ [';'] := by
  have hs : Strength.sequence ≤ creation.node.kind.strength :=
    Nat.le_trans (by decide) creation.call_le_strength
  exact text_render_of_states hstates creation.written hs creation.starts_plain

/-- Programs of one creation are written alike exactly if the creations are the same: no argument
list goes from one `new` or call to another. -/
theorem creation_text_eq_iff {first second : Tree} {creation other : Creation}
    (firstStates : first.States creation.node) (secondStates : second.States other.node)
    (options options' : RenderOptions) :
    (first.render options).text = (second.render options').text ↔ creation = other := by
  rw [← String.toList_inj, text_render_of_creation firstStates,
    text_render_of_creation secondStates]
  constructor
  · intro same
    have stops : Creation.Stops true [';'] := Creation.stops_cons true [] (by decide)
    exact (creation.determined true nofun other _ _ nofun stops stops same).1
  · rintro rfl
    rfl

/-- `new (x().y)(new z())` -/
def creationSample : Creation :=
  .create (.member (.call (.name ⟨⟨"x", by decide, by decide⟩, by decide⟩) [])
    ⟨⟨"y", by decide, by decide⟩, by decide⟩)
    [.create (.name ⟨⟨"z", by decide, by decide⟩, by decide⟩) []]

/-- `new x().y(new z())`, where the first arguments go to `new`. -/
def memberSample : Creation :=
  .call (.member (.create (.name ⟨⟨"x", by decide, by decide⟩, by decide⟩) [])
    ⟨⟨"y", by decide, by decide⟩, by decide⟩)
    [.create (.name ⟨⟨"z", by decide, by decide⟩, by decide⟩) []]

/-- Parentheses alone keep two creations apart. -/
theorem creation_texts_of_samples :
    ∃ first second, ofJson (creationSample.json.program "script") = .ok first ∧
      ofJson (memberSample.json.program "module") = .ok second ∧
      first.States creationSample.node ∧ second.States memberSample.node ∧
      (first.render {}).text = "new (x().y)(new z());" ∧
      (second.render {}).text = "new x().y(new z());" ∧
      ((first.render {}).text = (second.render {}).text ↔ creationSample = memberSample) := by
  obtain ⟨first, firstLowered, firstStates⟩ :=
    creationSample.lowers.exists_states creationSample.bare_node "script"
  obtain ⟨second, secondLowered, secondStates⟩ :=
    memberSample.lowers.exists_states memberSample.bare_node "module"
  refine ⟨first, second, firstLowered, secondLowered, firstStates, secondStates, ?_, ?_,
    creation_text_eq_iff firstStates secondStates {} {}⟩
  · exact String.toList_inj.mp (text_render_of_creation firstStates {})
  · exact String.toList_inj.mp (text_render_of_creation secondStates {})

end Tree

end SyntaxMarkup
