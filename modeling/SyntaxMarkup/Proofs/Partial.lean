import Mathlib.Data.List.Nodup
import Mathlib.Data.List.Perm.Subperm
import Mathlib.Data.List.Range

namespace SyntaxMarkup

/-- A function that is defined on all items is so on the list of them. -/
theorem mapM_eq_some_map {α β : Type} {f : α → Option β} {g : α → β} {items : List α}
    (each : ∀ item ∈ items, f item = some (g item)) : items.mapM f = some (items.map g) := by
  induction items with
  | nil => rfl
  | cons item others ih =>
    obtain ⟨here, later⟩ := List.forall_mem_cons.mp each
    rw [List.mapM_cons, here, ih later]
    rfl

/-- A round of a loop goes on from another state or ends with a result. -/
inductive Turn (σ ρ : Type) where
  | again (state : σ)
  | done (result : ρ)

variable {σ ρ : Type} {round : σ → Option (Turn σ ρ)}

/-- The rounds of a loop from a state on: the states in which they begin, and the result of the last
one. A round that reads out of bounds takes no turn. -/
inductive Ends (round : σ → Option (Turn σ ρ)) : σ → List σ → ρ → Prop
  | done {state : σ} {result : ρ} (turn : round state = some (.done result)) :
      Ends round state [state] result
  | again {state next : σ} {rest : List σ} {result : ρ} (turn : round state = some (.again next))
      (ends : Ends round next rest result) : Ends round state (state :: rest) result

theorem Ends.exists_cons {state : σ} {trace : List σ} {result : ρ}
    (ends : Ends round state trace result) : ∃ rest, trace = state :: rest := by
  cases ends with
  | done => exact ⟨[], rfl⟩
  | again => exact ⟨_, rfl⟩

/-- A loop that ends, keeps to some states and goes down in rank all the way. -/
structure Descends (round : σ → Option (Turn σ ρ)) (rank : σ → Nat) (keeps : σ → Prop)
    (state : σ) (trace : List σ) (result : ρ) : Prop where
  ends : Ends round state trace result
  kept : ∀ visited ∈ trace, keeps visited
  falls : trace.Pairwise fun before later => rank later < rank before

section Descends

variable {rank : σ → Nat} {keeps : σ → Prop}

/-- There are no more rounds than ranks up to that of the first state. -/
theorem Descends.length_le {state : σ} {trace : List σ} {result : ρ}
    (hdes : Descends round rank keeps state trace result) : trace.length ≤ rank state + 1 := by
  obtain ⟨ends, -, falls⟩ := hdes
  have hd : (trace.map rank).Nodup := by
    rw [List.Nodup, List.pairwise_map]
    exact falls.imp fun lower => Nat.ne_of_gt lower
  obtain ⟨rest, rfl⟩ := ends.exists_cons
  have inside : (state :: rest).map rank ⊆ List.range (rank state + 1) := by
    intro value hm
    obtain ⟨visited, ht, rfl⟩ := List.mem_map.mp hm
    rw [List.mem_range]
    rcases List.mem_cons.mp ht with rfl | later
    · exact Nat.lt_succ_self _
    · exact Nat.lt_succ_of_lt (List.rel_of_pairwise_cons falls later)
  have le := (hd.subperm inside).length_le
  rwa [List.length_map, List.length_range] at le

/-- A loop ends if each round ends it, or goes on to a state of lower rank for which the same
results are right. -/
theorem exists_descends (right : σ → ρ → Prop)
    (turn : ∀ state, keeps state →
      (∃ result, round state = some (.done result) ∧ right state result) ∨
      ∃ next, round state = some (.again next) ∧ keeps next ∧ rank next < rank state ∧
        ∀ result, right next result → right state result)
    (state : σ) (start : keeps state) :
    ∃ trace result, Descends round rank keeps state trace result ∧ right state result := by
  induction height : rank state using Nat.strong_induction_on generalizing state with
  | _ height ih =>
    obtain ⟨result, stops, hr⟩ | ⟨next, goes, hkept, lower, carried⟩ := turn state start
    · refine ⟨[state], result, ⟨.done stops, ?_, List.pairwise_singleton _ _⟩, hr⟩
      simpa using start
    · obtain ⟨trace, result, hdes, hr⟩ := ih _ (height ▸ lower) next hkept rfl
      obtain ⟨rest, eq⟩ := hdes.ends.exists_cons
      refine ⟨state :: trace, result, ⟨.again goes hdes.ends,
        List.forall_mem_cons.mpr ⟨start, hdes.kept⟩,
        List.pairwise_cons.mpr ⟨?_, hdes.falls⟩⟩, carried result hr⟩
      have falls := hdes.falls
      rw [eq] at falls ⊢
      exact List.forall_mem_cons.mpr ⟨lower, fun later hm =>
        (List.rel_of_pairwise_cons falls hm).trans lower⟩

end Descends

end SyntaxMarkup
