import SyntaxMarkup.Proofs.Layout.Nesting
import SyntaxMarkup.Proofs.Layout.Renumbering

namespace SyntaxMarkup

namespace Kind

/-- Whether a type is written as a call, or as a chain that may end with one. -/
def isCallForm : Kind → Bool
  | callExpression _ | importExpression | chainExpression => true
  | _ => false

/-- Whether an expression goes on from its child in a field: a member from its object, a template
from its tag. -/
def goesOnFrom (kind : Kind) (field : String) : Bool :=
  match kind with
  | memberExpression _ _ => field == "object"
  | taggedTemplateExpression => field == "tag"
  | _ => false

theorem isCallForm_cases {kind : Kind} (form : kind.isCallForm = true) :
    kind.isCall = true ∨ kind = .importExpression := by
  cases kind <;> simp_all [isCallForm, isCall]

end Kind

namespace Node

/-- The expressions that an expression goes on from, itself included. -/
inductive Spine {ι : Type} : Node ι → Node ι → Prop
  | refl (node : Node ι) : node.Spine node
  | step {node below : Node ι} {edge : Edge (Node ι)} (isEdge : edge ∈ node.edges)
      (onSpine : node.kind.goesOnFrom edge.key = true) (spine : edge.child.Spine below) :
      node.Spine below

variable {node : Node Nat}

theorem calleeBase?_eq_some_iff (hr : node.Regular) {base : Node Nat} :
    node.kind.calleeBase? node.slots = some base ↔
      ∃ edge ∈ node.edges, node.kind.goesOnFrom edge.key = true ∧ edge.child = base := by
  cases hk : node.kind with
  | memberExpression computed optional =>
    have hl := congrArg Kind.fields? hk
    have hf := fits_slots hr hl
    rw [exists_edge_iff hr hl]
    generalize node.slots = slots at hf
    repeat cases ‹Slot.Fits _ _›
    simp only [Kind.calleeBase?, Kind.goesOnFrom, Slot.entries]
    simp
    exact eq_comm
  | taggedTemplateExpression =>
    have hl := congrArg Kind.fields? hk
    have hf := fits_slots hr hl
    rw [exists_edge_iff hr hl]
    generalize node.slots = slots at hf
    repeat cases ‹Slot.Fits _ _›
    simp only [Kind.calleeBase?, Kind.goesOnFrom, Slot.entries]
    simp
    exact eq_comm
  | _ => simp [Kind.calleeBase?, Kind.goesOnFrom]

/-- The guard of a creation looks for calls all along the spine. -/
theorem containsCall_iff (hr : ∀ below ∈ node.preorder, below.Regular) :
    node.containsCall = true ↔ ∃ below, node.Spine below ∧ below.kind.isCall = true := by
  induction node using induction with
  | step node ih =>
    have ho := hr node node.self_mem_preorder
    rw [containsCall_eq, Bool.or_eq_true]
    constructor
    · rintro (call | further)
      · exact ⟨node, .refl node, call⟩
      · cases hf : node.kind.calleeBase? node.slots with
        | none => simp [hf] at further
        | some base =>
          rw [hf] at further
          obtain ⟨edge, he, hs, rfl⟩ := (calleeBase?_eq_some_iff ho).mp hf
          have hc := child_of_edge ho he
          obtain ⟨below, spine, call⟩ := (ih edge.child hc fun other hm =>
            hr other (mem_preorder_of_child hc hm)).mp further
          exact ⟨below, .step he hs spine, call⟩
    · rintro ⟨below, spine, call⟩
      cases spine with
      | refl => exact .inl call
      | @step _ _ edge he hs spine =>
        right
        have hc := child_of_edge ho he
        rw [(calleeBase?_eq_some_iff ho).mpr ⟨edge, he, hs, rfl⟩]
        exact (ih edge.child hc fun other hm =>
          hr other (mem_preorder_of_child hc hm)).mpr ⟨below, spine, call⟩

end Node

theorem Kind.encloses_callee {ι : Type} (callee : Node ι) :
    newExpression.encloses "callee" callee = false ↔
      Strength.call ≤ callee.kind.strength ∧ callee.containsCall = false := by
  have below := callee.kind.strength_lt_parenthesized
  rw [encloses_eq_false]
  cases contains : callee.containsCall <;> simp [brackets, needs, contains, below]

namespace Tree

variable {tree : Tree}

/-- A callee has no parentheses exactly if it binds as tight as a call and neither it nor what it
goes on from is a call of a function or a chain. So the one call form that can be met there is that
which imports a module. -/
theorem bare_callee_iff {value : Json} (h : Tree.ofJson value = .ok tree) {options : RenderOptions}
    (neutral : options.IsNeutral) {id : Nat} {node : Node Nat} (found : tree.node? id = some node)
    (creates : node.kind = .newExpression) {edge : Edge (Node Nat)} (isEdge : edge ∈ node.edges)
    (isCallee : edge.key = "callee") {u v : Nat}
    (own : (tree.render options).nodeFor? u = some id)
    (own' : (tree.render options).nodeFor? v = some edge.child.id) :
    ((tree.render options).bracketsAround? u v = some [] ↔
      Strength.call ≤ edge.child.kind.strength ∧
        ∀ below, edge.child.Spine below → below.kind.isCall = false) ∧
    ((tree.render options).bracketsAround? u v = some [] → ∀ below, edge.child.Spine below →
      below.kind.isCallForm = true → below.kind = .importExpression) := by
  have hregular := regular_of_ofJson h
  obtain ⟨hm, rfl⟩ := node?_eq_some_iff.mp found
  have hregular' (below) (hb : below ∈ node.preorder) : below.Regular :=
    hregular below (Node.mem_preorder_trans hm hb)
  have hc := Node.child_of_edge (hregular node hm) isEdge
  obtain ⟨around, outside, hexposed⟩ := exists_bracketsAround? hregular hm neutral
    (Node.child_mem_preorder hc) own own'
  rw [Node.exposes_child_iff (Node.Distinct.of_mem tree.nodup_ids hm) hregular' isEdge, creates,
    isCallee, Kind.encloses_callee] at hexposed
  have hcall : edge.child.containsCall = false ↔
      ∀ below, edge.child.Spine below → below.kind.isCall = false := by
    rw [← Bool.not_eq_true, Node.containsCall_iff fun below hb =>
      hregular' below (Node.mem_preorder_of_child hc hb)]
    simp
  rw [outside, Option.some.injEq, hexposed, hcall]
  refine ⟨Iff.rfl, fun bare below spine form => ?_⟩
  rcases Kind.isCallForm_cases form with call | hi
  · rw [bare.2 below spine] at call
    cases call
  · exact hi

def loadSample : Json :=
  .ofNode "Program" [("body", .array [.ofNode "ExpressionStatement" [("expression",
    .ofNode "NewExpression" [("callee", .ofNode "ImportExpression"
      [("source", .ofNode "Literal" [("raw", .string "'m'")])]), ("arguments", .array [])])]])]

theorem exists_loadSample :
    ∃ tree node edge, Tree.ofJson loadSample = .ok tree ∧ tree.node? 2 = some node ∧
      node.kind = .newExpression ∧ edge ∈ node.edges ∧ edge.key = "callee" ∧
      edge.child.kind = .importExpression ∧ (tree.render {}).nodeFor? 1 = some 2 ∧
      (tree.render {}).nodeFor? 2 = some edge.child.id ∧
      (tree.render {}).bracketsAround? 1 2 = some [] ∧
      (tree.render {}).text = "new import('m')();" := by
  obtain ⟨tree, hj, facts⟩ := exists_of_ofJson
    (f := fun tree => ((tree.node? 2).any fun node => node.kind == .newExpression &&
        node.edges.any fun edge => edge.key == "callee" && edge.child.kind == .importExpression &&
          edge.child.id == 1,
      (tree.render {}).nodeFor? 1, (tree.render {}).nodeFor? 2,
      (tree.render {}).bracketsAround? 1 2 == some [], (tree.render {}).text))
    (b := (true, some 2, some 1, true, "new import('m')();"))
    (by decide +kernel : (ofJson loadSample).toOption.map _ = some _)
  simp only [Prod.mk.injEq, Option.any_eq_true, List.any_eq_true, Bool.and_eq_true,
    beq_iff_eq] at facts
  obtain ⟨⟨node, hf, creates, edge, he, ⟨key, hi⟩, child⟩, hown, hown', bare, text⟩ := facts
  exact ⟨tree, node, edge, hj, hf, creates, he, key, hi, hown, child ▸ hown', bare, text⟩

/-- The import of a module is a callee without parentheses. -/
theorem bare_callee_of_loadSample :
    ∃ tree node edge, Tree.ofJson loadSample = .ok tree ∧ ({} : RenderOptions).IsNeutral ∧
      tree.node? 2 = some node ∧ node.kind = .newExpression ∧ edge ∈ node.edges ∧
      edge.key = "callee" ∧ (tree.render {}).nodeFor? 1 = some 2 ∧
      (tree.render {}).nodeFor? 2 = some edge.child.id ∧
      ∀ below, edge.child.Spine below → below.kind.isCall = false := by
  obtain ⟨tree, node, edge, hj, hf, creates, he, key, -, hown, hown', bare, -⟩ :=
    exists_loadSample
  have hneutral : ({} : RenderOptions).IsNeutral := by decide
  obtain ⟨guarded, -⟩ := bare_callee_iff hj hneutral hf creates he key hown hown'
  exact ⟨tree, node, edge, hj, hneutral, hf, creates, he, key, hown, hown',
    (guarded.mp bare).2⟩

/-- A creation from the import of a module has no parentheses around its callee, though that is
written as a call. -/
theorem bare_import_callee :
    ∃ tree node edge, Tree.ofJson loadSample = .ok tree ∧ tree.node? 2 = some node ∧
      node.kind = .newExpression ∧ edge ∈ node.edges ∧ edge.key = "callee" ∧
      (tree.render {}).nodeFor? 1 = some 2 ∧
      (tree.render {}).nodeFor? 2 = some edge.child.id ∧
      (tree.render {}).bracketsAround? 1 2 = some [] ∧ edge.child.Spine edge.child ∧
      edge.child.kind.isCallForm = true ∧ (tree.render {}).text = "new import('m')();" := by
  obtain ⟨tree, node, edge, hj, hf, creates, he, key, hi, hown, hown', bare, text⟩ :=
    exists_loadSample
  exact ⟨tree, node, edge, hj, hf, creates, he, key, hown, hown', bare, .refl _,
    hi ▸ rfl, text⟩

end Tree

end SyntaxMarkup
