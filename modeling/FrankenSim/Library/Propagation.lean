import Mathlib.Algebra.Order.BigOperators.Group.List
import Mathlib.Data.ENNReal.Inv
import Mathlib.Order.FixedPoints

/-!
# Propagation of magnitudes along a graph

Magnitudes enter a graph at its vertices and flow along its edges, each edge
scaling what its tail carries by a monotone map. The least assignment closed
under this is the frontier. On a graph whose edges increase a rank it is the
only such assignment, and it bounds every assignment that stays within its own
inflow.
-/
namespace FrankenSim.Library

open scoped ENNReal

/-- Magnitudes entering a graph, and how its edges carry them on. -/
structure Propagation (V E : Type*) where
  source : V → ℝ≥0∞
  edges : List E
  tail : E → V
  head : E → V
  carry : E → ℝ≥0∞ →o ℝ≥0∞

namespace Propagation

variable {V E : Type*} [DecidableEq V] (P : Propagation V E)

def incoming (v : V) : List E := P.edges.filter fun e => P.head e = v

/-- What reaches `v`: its own source and what its incoming edges carry. -/
noncomputable def inflow (x : V → ℝ≥0∞) (v : V) : ℝ≥0∞ :=
  P.source v + ((P.incoming v).map fun e => P.carry e (x (P.tail e))).sum

theorem mem_incoming {v : V} {e : E} : e ∈ P.incoming v ↔ e ∈ P.edges ∧ P.head e = v := by
  simp [incoming]

noncomputable def inflowHom : (V → ℝ≥0∞) →o (V → ℝ≥0∞) where
  toFun := P.inflow
  monotone' _ _ hxy _ :=
    add_le_add le_rfl (List.sum_le_sum fun e _ => (P.carry e).monotone (hxy (P.tail e)))

noncomputable def frontier : V → ℝ≥0∞ := P.inflowHom.lfp

theorem frontier_eq (v : V) :
    P.frontier v = P.source v + ((P.incoming v).map fun e =>
      P.carry e (P.frontier (P.tail e))).sum :=
  congrFun P.inflowHom.map_lfp.symm v

/-- Nothing reaches `v` exactly when nothing enters at it and no incoming edge
carries anything. -/
theorem frontier_eq_zero {v : V} : P.frontier v = 0 ↔
    P.source v = 0 ∧ ∀ e ∈ P.edges, P.head e = v → P.carry e (P.frontier (P.tail e)) = 0 := by
  rw [P.frontier_eq v, add_eq_zero]
  simp only [List.sum_eq_zero_iff, List.mem_map, P.mem_incoming]
  refine and_congr_right fun _ => ⟨fun h e he hv => h _ ⟨e, ⟨he, hv⟩, rfl⟩, ?_⟩
  rintro h _ ⟨e, ⟨he, hv⟩, rfl⟩
  exact h e he hv

/-- On a ranked graph an assignment within its own inflow is within the frontier. -/
theorem le_frontier (rank : V → ℕ) (hrank : ∀ e ∈ P.edges, rank (P.tail e) < rank (P.head e))
    {c : V → ℝ≥0∞} (hc : ∀ v, c v ≤ P.inflow c v) (v : V) : c v ≤ P.frontier v := by
  induction hn : rank v using Nat.strong_induction_on generalizing v with
  | _ n ih =>
    rw [P.frontier_eq v]
    refine (hc v).trans (add_le_add le_rfl (List.sum_le_sum fun e he => ?_))
    obtain ⟨he, hv⟩ := P.mem_incoming.1 he
    have hlt : rank (P.tail e) < n := hn ▸ hv ▸ hrank e he
    exact (P.carry e).monotone (ih _ hlt _ rfl)

end Propagation

end FrankenSim.Library
