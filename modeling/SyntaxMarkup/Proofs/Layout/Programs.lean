import SyntaxMarkup.Proofs.Layout.Statement
import SyntaxMarkup.Proofs.Tree.Checks

namespace SyntaxMarkup

/-- Whether a value describes a node, and which one it is lowered to. -/
structure Json.Lowers (value : Json) (node : Node Unit) : Prop where
  isNode : value.isNode
  tree : value.reading.tree = .ok node

namespace NodeObject

variable {object : NodeObject} {name : String}

theorem child_of_lowers {value : Json} {node : Node Unit} (hl : value.Lowers node)
    (demand : Demand) : object.child name demand value.reading.toDescribed = .ok node := by
  unfold child
  rw [Json.value_reading, if_pos hl.isNode, hl.tree]

/-- Whether the values in a field are lowered to its slot. -/
inductive Fills (object : NodeObject) : String × Arity → Field (Node Unit) → Prop
  | one {name : String} {value : Json} {node : Node Unit}
      (found : object.members.lookup name = some value) (lowers : value.Lowers node) :
      object.Fills (name, .one) ⟨name, .one node⟩
  | many {name : String} {values : List Json} {nodes : List (Node Unit)}
      (found : object.members.lookup name = some (.array values))
      (each : List.Forall₂ Json.Lowers values nodes) :
      object.Fills (name, .many) ⟨name, .many nodes⟩

theorem Fills.slot_eq {entry : String × Arity} {field : Field (Node Unit)}
    (fills : object.Fills entry field) : object.slot (Json.readMembers object.members) entry.1
      entry.2 = .ok field.slot ∧ field.name = entry.1 := by
  refine ⟨?_, by cases fills <;> rfl⟩
  unfold slot
  cases fills with
  | @one name value node hf hl =>
    have hpresent : object.field? name = some value :=
      field?_eq_some_iff.mpr ⟨hf, by rintro rfl; cases hl.isNode⟩
    rw [reading?_readMembers, hpresent]
    change Slot.one <$> object.child name .node value.reading.toDescribed = _
    rw [child_of_lowers hl]
    rfl
  | @many name values nodes hf each =>
    have hpresent : object.field? name = some (.array values) :=
      field?_eq_some_iff.mpr ⟨hf, nofun⟩
    have children : (Json.readItems values).mapM (object.child name .nodes) = .ok nodes := by
      rw [Json.readItems_eq_map]
      exact mapM_of_forall₂ (List.forall₂_map_left_iff.mpr
        (each.imp fun _ _ hl => child_of_lowers hl .nodes))
    rw [reading?_readMembers, hpresent]
    change (do return Slot.many (← (Json.readItems values).mapM (object.child name .nodes))) = _
    rw [children]
    rfl

theorem lowers_of_fills {value : Json} {typeName : String} {members : Json.Members} {kind : Kind}
    {children : List (String × Arity)} {fields : List (Field (Node Unit))}
    (hobject : value = .object members) (typed : members.lookup "type" = some (.string typeName))
    (form : (NodeObject.mk typeName members).form = ⟨.ok kind, children, false⟩)
    (placeless : (NodeObject.mk typeName members).span? = none)
    (each : List.Forall₂ (NodeObject.mk typeName members).Fills children fields) :
    value.Lowers (.mk () kind none fields) := by
  have is : value.Is ⟨typeName, members⟩ := ⟨hobject, typed⟩
  refine ⟨Json.isNode_iff.mpr ⟨_, is⟩, ?_⟩
  have hj : (NodeObject.mk typeName members).childFields (Json.readMembers members) =
      .ok fields := by
    rw [childFields, form]
    refine mapM_of_forall₂ (each.imp fun entry field fills => ?_)
    obtain ⟨slot, hn⟩ := fills.slot_eq
    change Field.mk entry.1 <$> _ = _
    rw [slot, ← hn]
    rfl
  rw [Json.tree_reading is, node, form]
  change (childFields _ _ >>= _) = _
  rw [hj, placeless]
  rfl

end NodeObject

/-- A program whose only statement is of an expression, both as values. -/
def Json.program (expression : Json) (sourceType : String) : Json :=
  .ofNode "Program" [("sourceType", .string sourceType),
    ("body", .array [.ofNode "ExpressionStatement" [("expression", expression)]])]

/-- Every expression that a value is lowered to is that of a program. -/
theorem Json.Lowers.exists_states {value : Json} {expression : Node Unit}
    (hl : value.Lowers expression) (bare : expression.bare = expression) (sourceType : String) :
    ∃ tree, Tree.ofJson (value.program sourceType) = .ok tree ∧ tree.States expression := by
  have statement : (Json.ofNode "ExpressionStatement" [("expression", value)]).Lowers
      (expression.statement none) :=
    NodeObject.lowers_of_fills rfl rfl rfl rfl (.cons (.one rfl hl) .nil)
  obtain ⟨kind, program⟩ : ∃ kind, (value.program sourceType).Lowers
      (.mk () (.program kind) none [⟨"body", .many [expression.statement none]⟩]) :=
    ⟨_, NodeObject.lowers_of_fills rfl rfl rfl rfl (.cons (.many rfl (.cons statement .nil)) .nil)⟩
  refine ⟨⟨expression.program kind none⟩, ?_, kind, none, ?_⟩
  · rw [Tree.ofJson, program.tree]
    rfl
  · exact (expression.bare_program kind none).trans (by rw [bare])

end SyntaxMarkup
