import SyntaxMarkup.Proofs.Access.Lowering
import SyntaxMarkup.Proofs.Access.Text

namespace SyntaxMarkup

namespace Access

theorem call_le_strength (access : Access) : Strength.call ≤ access.node.kind.strength := by
  rw [kind_node]
  cases access with
  | name => exact (by decide : Strength.call ≤ Strength.primary)
  | member | call | chain => exact Nat.le_refl Strength.call

theorem firstKind_node (access : Access) :
    access.node.firstKind = .identifier access.head.text := by
  induction access with
  | name => exact Node.firstKind_eq _
  | member object property optional ih =>
    rw [Node.firstKind_eq]
    exact ih
  | call callee arguments optional ih =>
    rw [node_call, Node.firstKind_eq]
    exact ih
  | chain content ih =>
    rw [Node.firstKind_eq]
    exact ih

theorem starts_plain (access : Access) :
    (access.node.startsWithBrace || access.node.startsWithDeclaration) = false := by
  unfold Node.startsWithBrace Node.startsWithDeclaration
  rw [firstKind_node]
  rfl

section Characters

variable {indent : String}

/-- Wherever an access stands within another one, no parentheses are needed. -/
theorem chars_operand {access : Access} (hw : access.node.WrittenAs indent access.text)
    {child : Node Nat} (h : child.bare = access.node) {least : Strength} (weak : least ≤ .call)
    (level : Nat) : Piece.chars indent level (Piece.atLeast least child.part) = access.text :=
  hw.chars_operand h (Nat.le_trans weak access.call_le_strength) level

theorem written_name (name : PlainName) :
    (nameNode name).WrittenAs indent name.text.toList := by
  refine Node.writtenAs_of_operands rfl [] rfl fun level children each => ?_
  exact Piece.chars_lit name.text

theorem written_member {object : Access} (hw : object.node.WrittenAs indent object.text)
    (property : PlainName) (optional : Bool) :
    (member object property optional).node.WrittenAs indent
      (member object property optional).text := by
  refine Node.writtenAs_of_operands rfl [object.node, nameNode property] rfl
    fun level children each => ?_
  obtain - | @⟨first, _, _, _, hobject, - | @⟨second, _, _, _, hp, ⟨⟩⟩⟩ := each
  have hi : first.kind.isBareInteger = false := by
    rw [← first.kind_bare, hobject, kind_node]
    cases object <;> rfl
  change Piece.chars indent level (
    Piece.atLeast (if first.kind.isBareInteger then .parenthesized else .call) first.part ++
      Piece.lit (if optional then "?." else ".") ++ Piece.plain second.part) = _
  rw [hi, Piece.chars_append, Piece.chars_append, Piece.chars_lit,
    (written_name property).chars_plain hp, text_member]
  have objectText : Piece.chars indent level (Piece.atLeast .call first.part) = object.text :=
    chars_operand hw hobject (Nat.le_refl _) level
  cases optional <;> simp [objectText, Step.text]

theorem written_call {callee : Access} (hw : callee.node.WrittenAs indent callee.text)
    {arguments : List Access} (each : ∀ item ∈ arguments, item.node.WrittenAs indent item.text)
    (optional : Bool) :
    (call callee arguments optional).node.WrittenAs indent
      (call callee arguments optional).text := by
  rw [node_call]
  refine Node.writtenAs_of_arguments rfl rfl
    (fun item hm child hi => chars_operand (each item hm) hi (by decide))
    fun level child parts hc items => ?_
  change Piece.chars indent level (Piece.atLeast .call child.part ++ Piece.litIf optional "?." ++
    Piece.lit "(" ++ Piece.commas parts ++ Piece.lit ")") = _
  simp only [Piece.chars_append, Piece.chars_lit, Piece.chars_litIf,
    chars_operand hw hc (Nat.le_refl _), items]
  rw [text_call]
  cases optional <;> simp [Step.text]

theorem written_chain {content : Access} (hw : content.node.WrittenAs indent content.text) :
    (chain content).node.WrittenAs indent (chain content).text := by
  refine Node.writtenAs_of_operands rfl [content.node] rfl fun level children each => ?_
  obtain - | @⟨child, _, _, _, hc, ⟨⟩⟩ := each
  exact hw.chars_plain hc level

theorem written (access : Access) : access.node.WrittenAs indent access.text := by
  induction access with
  | name name => exact written_name name
  | member object property optional ih => exact written_member ih property optional
  | call callee arguments optional ih each => exact written_call ih each optional
  | chain content ih => exact written_chain ih

end Characters

end Access

namespace Tree

theorem text_render_of_access {tree : Tree} {access : Access} (hstates : tree.States access.node)
    (options : RenderOptions) :
    (tree.render options).text.toList = access.text ++ [';'] := by
  have hs : Strength.sequence ≤ access.node.kind.strength :=
    Nat.le_trans (by decide) access.call_le_strength
  exact text_render_of_states hstates access.written hs access.starts_plain

section Programs

variable {first second : Tree} {access other : Access}

/-- Programs of one access are written alike exactly if the accesses differ in the ends of their
chains alone. -/
theorem access_text_eq_iff (firstStates : first.States access.node)
    (secondStates : second.States other.node) (options options' : RenderOptions) :
    (first.render options).text = (second.render options').text ↔
      access.unchained = other.unchained := by
  have he : Access.Ended [';'] := by simp [Access.Ended]
  rw [← String.toList_inj, text_render_of_access firstStates, text_render_of_access secondStates,
    Access.text_append_inj he he, and_iff_left rfl]

/-- The text tells the names, the members and the calls of an access, but not the ends of its
chains. It tells the access where none goes on from the end of a chain, and any other access is
written like one of these. -/
theorem access_texts (firstStates : first.States access.node)
    (secondStates : second.States other.node) (options options' : RenderOptions) :
    ((first.render options).text = (second.render options').text ↔
        access.unchained = other.unchained) ∧
      (access.Formed false → other.Formed false → access.Apart → other.Apart →
        (first.render options).text = (second.render options').text → access = other) ∧
      ∃ plain : Access, plain.Formed false ∧ plain.Apart ∧ ∀ third : Tree,
        third.States plain.node → (third.render options').text = (first.render options).text := by
  have texts := access_text_eq_iff firstStates secondStates options options'
  refine ⟨texts, ?_, ?_⟩
  · intro hformed hformed' hapart hapart' halike
    exact Access.eq_of_unchained_eq hformed hapart hformed' hapart' (texts.mp halike)
  · obtain ⟨plain, hformed, hapart, same⟩ := access.exists_apart
    refine ⟨plain, hformed, hapart, fun third hstates => ?_⟩
    exact (access_text_eq_iff hstates firstStates options' options).mpr same

end Programs

/-- `a?.b(c?.d).e`, where the second chain ends with the argument. -/
def argumentSample : Access :=
  .chain (.member (.call (.member (.name ⟨"a", by decide, by decide⟩) ⟨"b", by decide, by decide⟩
    true) [.chain (.member (.name ⟨"c", by decide, by decide⟩) ⟨"d", by decide, by decide⟩ true)]
    false) ⟨"e", by decide, by decide⟩ false)

theorem formed_argumentSample : argumentSample.Formed false := by
  have argument : Access.Formed false (.chain (.member (.name ⟨"c", by decide, by decide⟩)
      ⟨"d", by decide, by decide⟩ true)) :=
    .chain (.member _ (.name _) fun _ => rfl) rfl
  refine .chain (.member _ (.call (.member _ (.name _) fun _ => rfl) ?_ nofun) nofun) rfl
  exact List.forall_mem_singleton.mpr argument

theorem apart_argumentSample : argumentSample.Apart := by
  refine .chain (.member _ _ (.call _ (.member _ _ (.name _) rfl) ?_ rfl) rfl)
  exact List.forall_mem_singleton.mpr (.chain (.member _ _ (.name _) rfl))

/-- The end of the chain in the argument is found again. -/
theorem access_of_argumentSample :
    ∃ first second other, ofJson (argumentSample.programJson "script") = .ok first ∧
      ofJson (argumentSample.programJson "module") = .ok second ∧
      first.States argumentSample.node ∧ second.States other.node ∧
      (first.render {}).text = (second.render { indent := "\t" }).text ∧
      argumentSample = other := by
  obtain ⟨first, firstLowered, firstStates⟩ := argumentSample.exists_states "script"
  obtain ⟨second, secondLowered, secondStates⟩ := argumentSample.exists_states "module"
  obtain ⟨texts, same, -⟩ := access_texts firstStates secondStates {} { indent := "\t" }
  have halike := texts.mpr rfl
  exact ⟨first, second, argumentSample, firstLowered, secondLowered, firstStates, secondStates,
    halike, same formed_argumentSample formed_argumentSample apart_argumentSample
      apart_argumentSample halike⟩

/-- `a?.b` -/
def linkSample : Access :=
  .member (.name ⟨"a", by decide, by decide⟩) ⟨"b", by decide, by decide⟩ true

theorem formed_linkSample : linkSample.Formed true :=
  .member _ (.name _) fun _ => rfl

/-- `(a?.b).c`, where the chain ends before the last member. -/
def resumedSample : Access :=
  .member (.chain linkSample) ⟨"c", by decide, by decide⟩ false

/-- `a?.b.c` -/
def continuedSample : Access :=
  .chain (.member linkSample ⟨"c", by decide, by decide⟩ false)

/-- An access from the end of a chain is written as the chain that goes on. -/
theorem access_text_collision :
    ∃ first second, ofJson (resumedSample.programJson "script") = .ok first ∧
      ofJson (continuedSample.programJson "script") = .ok second ∧
      first.States resumedSample.node ∧ second.States continuedSample.node ∧
      resumedSample.Formed false ∧ continuedSample.Formed false ∧
      (first.render {}).text = "a?.b.c;" ∧ (second.render {}).text = "a?.b.c;" ∧
      resumedSample.node ≠ continuedSample.node := by
  obtain ⟨first, firstLowered, firstStates⟩ := resumedSample.exists_states "script"
  obtain ⟨second, secondLowered, secondStates⟩ := continuedSample.exists_states "script"
  have resumed : resumedSample.Formed false := .member _ (.chain formed_linkSample rfl) nofun
  have continued : continuedSample.Formed false := .chain (.member _ formed_linkSample nofun) rfl
  refine ⟨first, second, firstLowered, secondLowered, firstStates, secondStates, resumed,
    continued, ?_, ?_, ?_⟩
  · exact String.toList_inj.mp (text_render_of_access firstStates {})
  · exact String.toList_inj.mp (text_render_of_access secondStates {})
  · intro same
    cases congrArg Node.kind same

end Tree

end SyntaxMarkup
