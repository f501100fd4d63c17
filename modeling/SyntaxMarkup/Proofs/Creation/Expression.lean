import SyntaxMarkup.Proofs.Access.Expression
import SyntaxMarkup.Proofs.Layout.Statement

namespace SyntaxMarkup

/-- A plain name without brackets. -/
structure BareName extends PlainName where
  brackets : text.toList.all fun c => c != '[' && c != ']'
  deriving DecidableEq

inductive Creation where
  | name (name : BareName)
  | member (object : Creation) (property : BareName)
  | index (object key : Creation)
  | call (callee : Creation) (arguments : List Creation)
  | create (callee : Creation) (arguments : List Creation)

namespace Creation

@[induction_eliminator]
theorem induction {motive : Creation → Prop}
    (name : ∀ name, motive (.name name))
    (member : ∀ object property, motive object → motive (.member object property))
    (index : ∀ object key, motive object → motive key → motive (.index object key))
    (call : ∀ callee arguments, motive callee → (∀ item ∈ arguments, motive item) →
      motive (.call callee arguments))
    (create : ∀ callee arguments, motive callee → (∀ item ∈ arguments, motive item) →
      motive (.create callee arguments)) (creation : Creation) : motive creation :=
  @Creation.rec motive (fun items => ∀ item ∈ items, motive item) name member index call create
    nofun (fun _ _ first others => List.forall_mem_cons.mpr ⟨first, others⟩) creation

section Fold

variable {α : Type} (name : BareName → α) (member : α → BareName → α) (index : α → α → α)
  (call : α → List α → α) (create : Creation → α → List α → α)

mutual

/-- Computes from the names up; `create` is given its callee as well. -/
def fold : Creation → α
  | .name text => name text
  | .member object property => member (fold object) property
  | .index object key => index (fold object) (fold key)
  | .call callee arguments => call (fold callee) (foldList arguments)
  | .create callee arguments => create callee (fold callee) (foldList arguments)

def foldList : List Creation → List α
  | [] => []
  | item :: rest => fold item :: foldList rest

end

theorem foldList_eq_map (items : List Creation) :
    foldList name member index call create items =
      items.map (fold name member index call create) := by
  induction items with
  | nil => rfl
  | cons item rest ih => rw [foldList, ih, List.map_cons]

theorem fold_call (callee : Creation) (arguments : List Creation) :
    fold name member index call create (.call callee arguments) =
      call (fold name member index call create callee)
        (arguments.map (fold name member index call create)) := by
  rw [fold, foldList_eq_map]

theorem fold_create (callee : Creation) (arguments : List Creation) :
    fold name member index call create (.create callee arguments) =
      create callee (fold name member index call create callee)
        (arguments.map (fold name member index call create)) := by
  rw [fold, foldList_eq_map]

end Fold

def kind : Creation → Kind
  | name content => .identifier content.text
  | member _ _ => .memberExpression false false
  | index _ _ => .memberExpression true false
  | call _ _ => .callExpression false
  | create _ _ => .newExpression

def nameNode (name : BareName) : Node Unit :=
  Access.nameNode name.toPlainName

def node : Creation → Node Unit :=
  fold nameNode
    (fun object property => .mk () (.memberExpression false false) none
      [⟨"object", .one object⟩, ⟨"property", .one (nameNode property)⟩])
    (fun object key => .mk () (.memberExpression true false) none
      [⟨"object", .one object⟩, ⟨"property", .one key⟩])
    (fun callee arguments => .mk () (.callExpression false) none
      [⟨"callee", .one callee⟩, ⟨"arguments", .many arguments⟩])
    fun _ callee arguments => .mk () .newExpression none
      [⟨"callee", .one callee⟩, ⟨"arguments", .many arguments⟩]

theorem node_call (callee : Creation) (arguments : List Creation) :
    (call callee arguments).node = .mk () (.callExpression false) none
      [⟨"callee", .one callee.node⟩, ⟨"arguments", .many (arguments.map node)⟩] :=
  fold_call _ _ _ _ _ callee arguments

theorem node_create (callee : Creation) (arguments : List Creation) :
    (create callee arguments).node = .mk () .newExpression none
      [⟨"callee", .one callee.node⟩, ⟨"arguments", .many (arguments.map node)⟩] :=
  fold_create _ _ _ _ _ callee arguments

theorem kind_node (creation : Creation) : creation.node.kind = creation.kind := by
  cases creation with
  | call callee arguments =>
    rw [node_call]
    rfl
  | create callee arguments =>
    rw [node_create]
    rfl
  | name | member | index => rfl

/-- Whether arguments after `new` and the creation would go to a call in it: one that stands before
its members. What is inside parentheses or brackets, and what `new` makes, does not count. -/
def calls : Creation → Bool
  | name _ => false
  | member object _ => object.calls
  | index object _ => object.calls
  | call _ _ => true
  | create _ _ => false

theorem containsCall_node (creation : Creation) : creation.node.containsCall = creation.calls := by
  induction creation with
  | name => exact Node.containsCall_eq _
  | member object property ih =>
    rw [Node.containsCall_eq]
    exact ih
  | index object key ih =>
    rw [Node.containsCall_eq]
    exact ih
  | call callee arguments =>
    rw [node_call, Node.containsCall_eq]
    rfl
  | create callee arguments =>
    rw [node_create, Node.containsCall_eq]
    rfl

end Creation

end SyntaxMarkup
