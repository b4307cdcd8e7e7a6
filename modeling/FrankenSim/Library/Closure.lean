import Mathlib.Data.List.Pairwise
import Mathlib.Order.Basic

/-!
# Upward closure by one reverse sweep

A set of vertices is closed against the direction of the edges by visiting the
vertices in reverse topological order once: each member passes its membership on
to its parents, which come later in the visit.
-/
namespace FrankenSim.Library

variable {V : Type*}

/-- The least set that contains `base` and the parents of its members. -/
inductive Pulled (edge : V → V → Prop) (base : V → Prop) : V → Prop
  | base {v} : base v → Pulled edge base v
  | pull {u v} : edge u v → Pulled edge base v → Pulled edge base u

/-- Visit the vertices in order; a member pulls in its parents. -/
def sweep (edge : V → V → Prop) : List V → (V → Prop) → V → Prop
  | [], R => R
  | v :: vs, R => sweep edge vs fun u => R u ∨ (R v ∧ edge u v)

variable {edge : V → V → Prop}

theorem subset_sweep {vs : List V} : ∀ {R : V → Prop} {u : V}, R u → sweep edge vs R u := by
  induction vs with
  | nil => exact fun h => h
  | cons v vs ih => exact fun h => ih (Or.inl h)

theorem sweep_congr {vs : List V} : ∀ {R R' : V → Prop}, (∀ u, R u ↔ R' u) →
    ∀ u, sweep edge vs R u ↔ sweep edge vs R' u := by
  induction vs with
  | nil => exact fun h => h
  | cons v vs ih => exact fun h => ih fun u => by rw [h u, h v]

theorem Pulled.of_sweep {base : V → Prop} {vs : List V} : ∀ {R : V → Prop},
    (∀ u, R u → Pulled edge base u) → ∀ u, sweep edge vs R u → Pulled edge base u := by
  induction vs with
  | nil => exact fun h => h
  | cons v vs ih =>
    refine fun h => ih fun u hu => ?_
    rcases hu with hu | ⟨hv, he⟩
    · exact h u hu
    · exact .pull he (h v hv)

/-- A vertex without edges into the visited ones is not pulled in. -/
theorem sweep_iff_of_no_edge {u : V} {vs : List V} : ∀ {R : V → Prop}, (∀ v ∈ vs, ¬ edge u v) →
    (sweep edge vs R u ↔ R u) := by
  induction vs with
  | nil => exact fun _ => Iff.rfl
  | cons v vs ih =>
    intro R h
    obtain ⟨hv, h⟩ := List.forall_mem_cons.1 h
    refine (ih h).trans ⟨fun hu => ?_, Or.inl⟩
    exact hu.resolve_right fun hpull => hv hpull.2

/-- In reverse topological order one sweep is closed. -/
theorem sweep_closed {vs : List V} : ∀ {R : V → Prop}, vs.Pairwise (fun a b => ¬ edge a b) →
    (∀ v ∈ vs, ¬ edge v v) → ∀ {u v : V}, v ∈ vs → edge u v → sweep edge vs R v →
    sweep edge vs R u := by
  induction vs with
  | nil => exact fun _ _ _ _ h => by cases h
  | cons a vs ih =>
    intro R hsorted hirrefl u v hv he hswept
    obtain ⟨ha, hsorted⟩ := List.pairwise_cons.1 hsorted
    obtain ⟨haa, hirrefl⟩ := List.forall_mem_cons.1 hirrefl
    rcases List.mem_cons.1 hv with rfl | hv
    · have hmember : R v ∨ (R v ∧ edge v v) := (sweep_iff_of_no_edge ha).1 hswept
      change sweep edge vs (fun w => R w ∨ (R v ∧ edge w v)) u
      exact subset_sweep (Or.inr ⟨hmember.elim id And.left, he⟩)
    · exact ih hsorted hirrefl hv he hswept

/-- When every edge ends in a visited vertex, the sweep is the least closed set. -/
theorem sweep_iff_pulled {base : V → Prop} {vs : List V}
    (hsorted : vs.Pairwise fun a b => ¬ edge a b) (hirrefl : ∀ v ∈ vs, ¬ edge v v)
    (hends : ∀ u v, edge u v → v ∈ vs) (u : V) :
    sweep edge vs base u ↔ Pulled edge base u := by
  refine ⟨Pulled.of_sweep (fun _ => .base) u, fun h => ?_⟩
  induction h with
  | base h => exact subset_sweep h
  | pull he _ ih => exact sweep_closed hsorted hirrefl (hends _ _ he) he ih

end FrankenSim.Library
