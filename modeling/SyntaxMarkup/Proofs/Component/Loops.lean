import SyntaxMarkup.Proofs.Component.Runs
import SyntaxMarkup.Proofs.Layout.Lookups
import SyntaxMarkup.Proofs.Layout.Standing
import SyntaxMarkup.Proofs.Tree.Loops

namespace SyntaxMarkup

namespace Document

variable {document : Document}

/-- A round of the loop that looks for the nearest unit with a node. -/
def outward (document : Document) (unit : Nat) : Option (Turn Nat (Option (Nat × Nat))) :=
  match document.nodeFor? unit with
  | some node => some (.done (some (unit, node)))
  | none =>
    match (document.unit? unit).bind MarkupUnit.parent with
    | some parent => some (.again parent)
    | none => some (.done none)

theorem nearestNode?_succ (steps id : Nat) : document.nearestNode? (steps + 1) id =
    match document.nodeFor? id with
    | some node => some (id, node)
    | none => ((document.unit? id).bind MarkupUnit.parent).bind (document.nearestNode? steps) := by
  rw [nearestNode?]
  cases document.unit? id <;> rfl

/-- A step more than there are smaller numbers makes no difference. -/
theorem nearestNode?_succ_of_le (ordered : document.ParentsFirst) {steps id : Nat}
    (enough : id ≤ steps) :
    document.nearestNode? (steps + 1) id = document.nearestNode? steps id := by
  induction steps generalizing id with
  | zero =>
    rw [nearestNode?_succ, nearestNode?]
    cases document.nodeFor? id with
    | some node => rfl
    | none =>
      cases around : (document.unit? id).bind MarkupUnit.parent with
      | none => rfl
      | some parent => exact absurd (ordered id parent around) (by omega)
  | succ steps ih =>
    rw [nearestNode?_succ, nearestNode?_succ steps]
    cases document.nodeFor? id with
    | some node => rfl
    | none =>
      cases around : (document.unit? id).bind MarkupUnit.parent with
      | none => rfl
      | some parent =>
        have smaller := ordered id parent around
        exact ih (by omega)

theorem exists_outward (ordered : document.ParentsFirst) {unit : Nat}
    (hk : unit < document.unitCount) :
    ∃ trace, Descends document.outward id (· < document.unitCount) unit trace
      (document.nearestNode? document.unitCount unit) := by
  have turns : ∀ unit < document.unitCount,
      (∃ found, document.outward unit = some (.done found) ∧
        found = document.nearestNode? document.unitCount unit) ∨
      ∃ parent, document.outward unit = some (.again parent) ∧ parent < document.unitCount ∧
        parent < unit ∧ ∀ found, found = document.nearestNode? document.unitCount parent →
          found = document.nearestNode? document.unitCount unit := by
    intro unit hk
    obtain ⟨last, count⟩ : ∃ last, document.unitCount = last + 1 :=
      ⟨document.unitCount - 1, by omega⟩
    rw [count, outward, nearestNode?_succ last unit]
    cases document.nodeFor? unit with
    | some node => exact .inl ⟨_, rfl, rfl⟩
    | none =>
      cases around : (document.unit? unit).bind MarkupUnit.parent with
      | none => exact .inl ⟨_, rfl, rfl⟩
      | some parent =>
        have smaller := ordered unit parent around
        refine .inr ⟨parent, rfl, by omega, smaller, fun found same => same.trans ?_⟩
        exact nearestNode?_succ_of_le ordered (by omega)
  obtain ⟨trace, found, hdes, rfl⟩ := exists_descends _ turns unit hk
  exact ⟨trace, hdes⟩

theorem parentsFirst_render (tree : Tree) (options : RenderOptions) :
    (tree.render options).ParentsFirst :=
  parentsFirst_of_marks (tree.marks_written options) (tree.numbered_render options)

theorem parentsFirst_ofError (message : String) : (ofError message).ParentsFirst := by
  have built : ofError message =
      (Builder.after [.openUnit errorLabel none none, .text message, .close]).finish := rfl
  rw [built]
  exact parentsFirst_of_marks (Builder.marks_after _) (Builder.numbered_after _)

end Document

namespace Component

/-- In every document that a component comes to show a unit has a greater number than the one
around it. -/
theorem parentsFirst_after {parse : Parser} {options : RenderOptions} {operations : List Operation}
    {document : Document}
    (hshown : (after parse options operations).component.document? = some document) :
    document.ParentsFirst := by
  have hc := coherent_after parse options operations
  rcases Nat.eq_zero_or_pos (after parse options operations).passes with none | some
  · rw [document?, hc.unrendered none] at hshown
    cases hshown
  · have shows := hc.shown some
    revert shows
    cases (after parse options operations).component.attributes.outcome parse with
    | ok tree =>
      rintro ⟨hr, -, -⟩
      cases hshown.symm.trans hr
      exact Document.parentsFirst_render _ _
    | error error =>
      rintro ⟨hr, -, -⟩
      cases hshown.symm.trans hr
      exact Document.parentsFirst_ofError _

end Component

/-- All loops over a lowered tree come to an end: those that start at one of its nodes, and
rendering, which looks up what the records name. So does the loop of a click, in every document that
a component comes to show. -/
theorem loops_end {value : Json} {tree : Tree} (lowered : Tree.ofJson value = .ok tree) :
    (∀ id, (tree.record? id).isSome ↔ id < tree.size) ∧
    (∀ id record, tree.record? id = some record → ∀ child ∈ record.children, child < id) ∧
    (∀ id < tree.size, ∃ node, tree.node? id = some node ∧ tree.LoopsEnd node) ∧
    (∃ part, tree.fold? Node.inscribe tree.size tree.root.id = some part ∧
      part.value .plain 0 = tree.events) ∧
    ∀ parse options operations document,
      (Component.after parse options operations).component.document? = some document →
      ∀ unit < document.unitCount, ∃ trace,
        Descends document.outward id (· < document.unitCount) unit trace
          (document.nearestNode? document.unitCount unit) := by
  have hr := Tree.regular_of_ofJson lowered
  refine ⟨fun id => Tree.isSome_record?, fun id record hf child => Tree.lt_of_mem_record hf,
    fun id hk => ?_, tree.exists_fold?_root, fun parse options operations document hshown unit =>
      Document.exists_outward (Component.parentsFirst_after hshown)⟩
  obtain ⟨node, hm, -, hf⟩ := Tree.exists_node hk
  exact ⟨node, hf, Tree.loopsEnd hr hm⟩

/-- A chain of calls, `f().g(..)`, with an argument that has no template and two nodes below it. -/
def chainSample : Json :=
  let name (name : String) : Json := .ofNode "Identifier" [("name", .string name)]
  .ofNode "Program" [("body", .array [.ofNode "ExpressionStatement" [("expression",
    .ofNode "CallExpression" [("callee", .ofNode "MemberExpression"
      [("object", .ofNode "CallExpression" [("callee", name "f"), ("arguments", .array [])]),
        ("property", name "g")]),
      ("arguments", .array [.ofNode "JSXFragment"
        [("children", .array [name "x", name "y"])]])])]])]

/-- From the outer call the loops go to the first name and find the inner call, the two nodes below
the argument are taken from the stack, and the path of the first name has five steps. -/
theorem loops_end_of_chainSample : ∃ tree, Tree.ofJson chainSample = .ok tree ∧
    (∃ trace first, Descends tree.leftmost id (· < 10) 7 trace first ∧
      ∃ other, tree.node? first = some other ∧ other.kind = .identifier "f") ∧
    (∃ trace, Descends tree.calleeContainsCall id (· < 10) 3 trace true) ∧
    (∃ trace shared, Ends tree.spread ⟨[], [5, 4]⟩ trace shared ∧
      shared = trace.filterMap (·.stack.head?) ∧ shared.Perm [4, 5]) ∧
    (∃ trace path, Ends tree.climb ⟨0, {}⟩ trace path ∧ path.typePath.length = 6 ∧
      trace.Pairwise fun before later => before.id < later.id) ∧
    ∃ document,
      (Component.after Component.sampleParser {} [.setContent "  a;"]).component.document? =
        some document ∧
      ∃ trace, Descends document.outward id (· < document.unitCount) 1 trace (some (1, 0)) := by
  obtain ⟨tree, hj, facts⟩ := exists_of_ofJson
    (f := fun tree => (tree.size,
      (tree.node? 7).any fun node => node.firstKind == .identifier "f",
      (tree.node? 3).any Node.containsCall,
      (tree.node? 6).any fun node => node.record.children == [4, 5] &&
        node.descendants.map Node.id == [4, 5],
      (tree.annotate.path 0).typePath.length))
    (b := (10, true, true, true, 6))
    (by decide +kernel : (Tree.ofJson chainSample).toOption.map _ = some _)
  simp only [Prod.mk.injEq, Option.any_eq_true, Bool.and_eq_true, beq_iff_eq] at facts
  obtain ⟨size, ⟨call, hc, first⟩, ⟨member, hmember, calls⟩,
    ⟨argument, ha, children, descendants⟩, steps⟩ := facts
  obtain ⟨-, -, loops, -, clicks⟩ := loops_end hj
  have ends {id : Nat} {node : Node Nat} (hfound : tree.node? id = some node) :
      tree.LoopsEnd node := by
    obtain ⟨hm, rfl⟩ := Tree.node?_eq_some_iff.mp hfound
    obtain ⟨other, hfound', ends⟩ := loops node.id (Tree.id_lt_size hm)
    cases hfound.symm.trans hfound'
    exact ends
  have hn {id : Nat} {node : Node Nat} (hfound : tree.node? id = some node) :
      node.id = id := (Tree.node?_eq_some_iff.mp hfound).2
  obtain ⟨leaf, hl, climbs⟩ := loops 0 (size ▸ Nat.succ_pos 9)
  refine ⟨tree, hj, ?_, ?_, ?_, ?_, ?_⟩
  · obtain ⟨trace, number, hdes, -, other, hfound, kind⟩ := (ends hc).leftmost
    rw [hn hc, size] at hdes
    exact ⟨trace, number, hdes, other, hfound, kind.trans first⟩
  · obtain ⟨trace, hdes, -⟩ := (ends hmember).callee
    rw [hn hmember, size, calls] at hdes
    exact ⟨trace, hdes⟩
  · obtain ⟨trace, shared, ends, -, -, taken, same, -⟩ := (ends ha).spread
    rw [children] at ends
    exact ⟨trace, shared, ends, taken, descendants ▸ same⟩
  · obtain ⟨trace, ends, -, -, rises⟩ := climbs.climb
    rw [hn hl] at ends
    exact ⟨trace, _, ends, steps, rises⟩
  · have hshown : ((Component.after Component.sampleParser {}
        [.setContent "  a;"]).component.document?.map fun document =>
          (document.unitCount, document.nearestNode? document.unitCount 1)) =
        some (2, some (1, 0)) := by decide +kernel
    obtain ⟨document, hshown, facts⟩ := Option.map_eq_some_iff.mp hshown
    obtain ⟨count, nearest⟩ := Prod.mk.inj facts
    obtain ⟨trace, hdes⟩ := clicks _ _ _ document hshown 1 (by omega)
    rw [nearest] at hdes
    exact ⟨document, hshown, trace, hdes⟩

end SyntaxMarkup
