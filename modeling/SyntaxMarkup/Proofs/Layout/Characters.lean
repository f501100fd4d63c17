import SyntaxMarkup.Proofs.Layout.Uses
import SyntaxMarkup.Proofs.Markup.Marks

namespace SyntaxMarkup

def Event.chars (indent : String) : Event → List Char
  | .text content => content.toList
  | .pad level => (String.join (List.replicate level indent)).toList
  | _ => []

namespace Builder

theorem chars_apply (builder : Builder) (indent : String) (event : Event) :
    (builder.apply indent event).chars = builder.chars ++ event.chars indent := by
  cases event with
  | openUnit label title node =>
    rw [apply, chars, marks_openUnit, List.filterMap_append]
    rfl
  | text content => exact chars_text builder content
  | pad level => exact chars_text builder _
  | close =>
    rw [apply, chars, marks_close, List.filterMap_append]
    split <;> rfl
  | share node target =>
    obtain ⟨nodeUnits, eq⟩ := builder.share_eq node target
    rw [apply, eq]
    exact (List.append_nil _).symm

theorem chars_run (builder : Builder) (indent : String) (events : List Event) :
    (events.foldl (apply indent) builder).chars =
      builder.chars ++ events.flatMap (Event.chars indent) := by
  induction events generalizing builder with
  | nil => exact (List.append_nil _).symm
  | cons event rest ih =>
    rw [List.foldl_cons, ih, chars_apply, List.flatMap_cons, List.append_assoc]

end Builder

/-- The text of a document is what its events write. -/
theorem Tree.text_render (tree : Tree) (options : RenderOptions) :
    (tree.render options).text.toList = tree.events.flatMap (Event.chars options.indent) := by
  rw [Tree.render, Builder.text_finish, Builder.chars_run]
  rfl

/-- Texts with commas between them. -/
def joined : List (List Char) → List Char
  | [] => []
  | first :: rest => first ++ rest.flatMap fun item => ',' :: ' ' :: item

namespace Piece

def chars (indent : String) (level : Nat) (pieces : List Piece) : List Char :=
  (pieces.flatMap (Piece.events level)).flatMap (Event.chars indent)

variable {indent : String} {level : Nat}

@[simp] theorem chars_append (first rest : List Piece) :
    chars indent level (first ++ rest) = chars indent level first ++ chars indent level rest := by
  simp [chars]

@[simp] theorem chars_lit (content : String) :
    chars indent level (lit content) = content.toList := by
  simp [chars, lit, Piece.events, Event.chars]

@[simp] theorem chars_litIf (flag : Bool) (content : String) :
    chars indent level (litIf flag content) = if flag then content.toList else [] := by
  cases flag with
  | true => exact chars_lit content
  | false => rfl

theorem chars_plain (part : Part) :
    chars indent level (plain part) = (part.value .plain level).flatMap (Event.chars indent) := by
  simp [chars, plain, Piece.events]

theorem chars_atLeast (least : Strength) (part : Part) :
    chars indent level (atLeast least part) =
      if part.node.kind.strength < least then
        '(' :: (part.value .plain level).flatMap (Event.chars indent) ++ [')']
      else (part.value .plain level).flatMap (Event.chars indent) := by
  unfold atLeast
  split
  · simp [chars_plain]
  · exact chars_plain part

theorem chars_flatMap {α : Type} (items : List α) (f : α → List Piece) :
    chars indent level (items.flatMap f) =
      items.flatMap fun item => chars indent level (f item) := by
  simp [chars, List.flatMap_assoc]

theorem chars_commas (parts : List Part) :
    chars indent level (commas parts) =
      joined (parts.map fun part => chars indent level (atLeast .assignment part)) := by
  cases parts with
  | nil => rfl
  | cons first rest =>
    rw [commas, List.map_cons, separated_cons, chars_append, chars_flatMap, List.flatMap_map,
      List.map_cons, joined, List.flatMap_map]
    simp

end Piece

/-- The unit of a node adds no text. -/
theorem Node.chars_events (indent : String) (node : Node Nat) (place : Place) (level : Nat) :
    (node.events place level).flatMap (Event.chars indent) =
      Piece.chars indent level (node.pieces node.parts place) := by
  rw [events_eq, Piece.chars]
  unfold framed
  split <;> simp [Event.chars]

end SyntaxMarkup
