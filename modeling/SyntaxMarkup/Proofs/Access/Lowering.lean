import SyntaxMarkup.Proofs.Access.Expression
import SyntaxMarkup.Proofs.Layout.Programs

namespace SyntaxMarkup

namespace Access

def nameJson (name : PlainName) : Json :=
  .ofNode "Identifier" [("name", .string name.text)]

/-- An access as a JSON value. -/
def json : Access → Json :=
  fold nameJson
    (fun object property optional => .ofNode "MemberExpression" [("object", object),
      ("property", nameJson property), ("computed", .bool false), ("optional", .bool optional)])
    (fun callee arguments optional => .ofNode "CallExpression" [("callee", callee),
      ("arguments", .array arguments), ("optional", .bool optional)])
    fun content => .ofNode "ChainExpression" [("expression", content)]

theorem json_call (callee : Access) (arguments : List Access) (optional : Bool) :
    (call callee arguments optional).json = .ofNode "CallExpression" [("callee", callee.json),
      ("arguments", .array (arguments.map json)), ("optional", .bool optional)] :=
  fold_call _ _ _ _ callee arguments optional

theorem lowers (access : Access) : access.json.Lowers access.node := by
  induction access with
  | name content => exact ⟨rfl, rfl⟩
  | member object property optional ih =>
    have name : (nameJson property).Lowers (nameNode property) := ⟨rfl, rfl⟩
    exact NodeObject.lowers_of_fills rfl rfl rfl rfl
      (.cons (.one rfl ih) (.cons (.one rfl name) .nil))
  | call callee arguments optional ih each =>
    have items : List.Forall₂ Json.Lowers (arguments.map json) (arguments.map node) :=
      List.forall₂_map_left_iff.mpr (List.forall₂_map_right_iff.mpr (List.forall₂_same.mpr each))
    rw [json_call, node_call]
    exact NodeObject.lowers_of_fills rfl rfl rfl rfl
      (.cons (.one rfl ih) (.cons (.many rfl items) .nil))
  | chain content ih => exact NodeObject.lowers_of_fills rfl rfl rfl rfl (.cons (.one rfl ih) .nil)

/-- A program of one access. -/
def programJson (access : Access) (sourceType : String) : Json :=
  .ofNode "Program" [("sourceType", .string sourceType),
    ("body", .array [.ofNode "ExpressionStatement" [("expression", access.json)]])]

theorem bare_node (access : Access) : access.node.bare = access.node := by
  induction access with
  | name => rfl
  | member object property optional ih =>
    have name : (nameNode property).bare = nameNode property := rfl
    exact Node.bare_eq_self (List.forall_mem_cons.mpr ⟨ih, List.forall_mem_singleton.mpr name⟩)
  | call callee arguments optional ih each =>
    rw [node_call]
    exact Node.bare_of_arguments ih (List.forall_mem_map.mpr each)
  | chain content ih => exact Node.bare_eq_self (List.forall_mem_singleton.mpr ih)

/-- Every access is what the only statement of some program is lowered to. -/
theorem exists_states (access : Access) (sourceType : String) :
    ∃ tree, Tree.ofJson (access.programJson sourceType) = .ok tree ∧ tree.States access.node :=
  access.lowers.exists_states access.bare_node sourceType

end Access

end SyntaxMarkup
