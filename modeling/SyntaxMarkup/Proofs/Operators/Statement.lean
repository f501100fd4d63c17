import SyntaxMarkup.Proofs.Operators.Unambiguous
import SyntaxMarkup.Proofs.Operators.Writing
import SyntaxMarkup.Proofs.Tree.Regular

namespace SyntaxMarkup

namespace Expression

open Phrase

/-- The first node in the text of an expression is one of an expression. -/
theorem exists_firstKind (expression : Expression) :
    ∃ first : Expression, expression.node.firstKind = first.kind := by
  induction expression with
  | identifier name => exact ⟨.identifier name, Node.firstKind_eq _⟩
  | unary operator argument => exact ⟨.unary operator argument, Node.firstKind_eq _⟩
  | await argument => exact ⟨.await argument, Node.firstKind_eq _⟩
  | update operator leading name =>
    rw [Node.firstKind_eq]
    cases leading with
    | true => exact ⟨.update operator true name, rfl⟩
    | false => exact ⟨.identifier name, Node.firstKind_eq _⟩
  | assignment operator name right =>
    rw [Node.firstKind_eq]
    exact ⟨.identifier name, Node.firstKind_eq _⟩
  | binary operator left right ih | logical operator left right ih =>
    rw [Node.firstKind_eq]
    exact ih
  | conditional test consequent alternate ih | sequence first second rest ih =>
    rw [Node.firstKind_eq]
    exact ih

theorem starts_plain (expression : Expression) :
    (expression.node.startsWithBrace || expression.node.startsWithDeclaration) = false := by
  obtain ⟨first, eq⟩ := exists_firstKind expression
  unfold Node.startsWithBrace Node.startsWithDeclaration
  rw [eq]
  cases first <;> rfl

def statement (expression : Expression) (directive : Option String) : Node Unit :=
  .mk () (.expressionStatement directive) none [⟨"expression", .one expression.node⟩]

def program (expression : Expression) (sourceType : SourceType) (directive : Option String) :
    Node Unit :=
  .mk () (.program sourceType) none [⟨"body", .many [expression.statement directive]⟩]

end Expression

namespace Tree

/-- Whether a tree is a program whose only statement is an expression, numbers and places in
source text aside. -/
def Holds (tree : Tree) (expression : Expression) : Prop :=
  ∃ sourceType directive, tree.content.bare = expression.program sourceType directive

theorem text_render_of_holds {tree : Tree} {expression : Expression} (h : tree.Holds expression)
    (options : RenderOptions) :
    (tree.render options).text.toList = expression.phrase.text ++ [';'] := by
  have hs : Strength.sequence ≤ expression.node.kind.strength := by
    rw [Expression.kind_node, ← Expression.strength_phrase]
    exact Phrase.sequence_le_strength _
  exact text_render_of_states h expression.written hs expression.starts_plain

/-- The parentheses in the text of an expression tell how the expression is built: programs of one
expression that are written alike hold the same one. -/
theorem expression_eq_of_text_eq {first second : Tree} {expression other : Expression}
    (firstHolds : first.Holds expression) (secondHolds : second.Holds other)
    {options options' : RenderOptions}
    (alike : (first.render options).text = (second.render options').text) : expression = other := by
  have texts : expression.phrase.text ++ [';'] = other.phrase.text ++ [';'] := by
    rw [← text_render_of_holds firstHolds options, alike, text_render_of_holds secondHolds options']
  have phrases := Phrase.eq_of_statement expression.valid_phrase other.valid_phrase texts
  rw [← expression.expression_phrase, phrases, other.expression_phrase]

def differenceSample (sourceType : String) : Json :=
  .ofNode "Program" [("sourceType", .string sourceType), ("body", .array
    [.ofNode "ExpressionStatement" [("expression", .ofNode "BinaryExpression"
      [("operator", .string "-"), ("left", .ofNode "Identifier" [("name", .string "a")]),
        ("right", .ofNode "BinaryExpression" [("operator", .string "-"),
          ("left", .ofNode "Identifier" [("name", .string "b")]),
          ("right", .ofNode "Identifier" [("name", .string "c")])])])]])]

def difference : Expression :=
  .binary .subtract (.identifier ⟨"a", by decide, by decide, by decide⟩)
    (.binary .subtract (.identifier ⟨"b", by decide, by decide, by decide⟩)
      (.identifier ⟨"c", by decide, by decide, by decide⟩))

/-- Neither the type of the source nor the indentation hides the parentheses. -/
theorem expression_eq_of_differenceSample :
    ∃ first second other, ofJson (differenceSample "script") = .ok first ∧
      ofJson (differenceSample "module") = .ok second ∧ first.Holds difference ∧
      second.Holds other ∧ (first.render {}).text = (second.render { indent := "\t" }).text ∧
      difference = other := by
  obtain ⟨first, firstLowered, firstIs⟩ : ∃ tree, ofJson (differenceSample "script") = .ok tree ∧
      tree.content.bare = difference.program .script none :=
    exists_of_ofJson (by rfl : (ofJson (differenceSample "script")).toOption.map _ = some _)
  obtain ⟨second, secondLowered, secondIs⟩ : ∃ tree, ofJson (differenceSample "module") = .ok tree ∧
      tree.content.bare = difference.program .module none :=
    exists_of_ofJson (by rfl : (ofJson (differenceSample "module")).toOption.map _ = some _)
  have firstHolds : first.Holds difference := ⟨_, _, firstIs⟩
  have secondHolds : second.Holds difference := ⟨_, _, secondIs⟩
  have halike : (first.render {}).text = (second.render { indent := "\t" }).text := by
    rw [← String.toList_inj, text_render_of_holds firstHolds, text_render_of_holds secondHolds]
  exact ⟨first, second, difference, firstLowered, secondLowered, firstHolds, secondHolds, halike,
    expression_eq_of_text_eq firstHolds secondHolds halike⟩

end Tree

end SyntaxMarkup
