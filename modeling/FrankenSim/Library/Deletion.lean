import Mathlib.Data.List.Basic
import Mathlib.Order.Basic

/-!
# Deletion from a list

Members of a list are dropped one by one while a failure stays. What is kept before the current
place is needed: without it the rest passes.
-/
namespace FrankenSim.Library

variable {α : Type} {P : List α → Prop} {l whole : List α} {k : ℕ}

/-- Without any one of the first members the rest passes. -/
def NeededBefore (P : List α → Prop) (k : ℕ) (l : List α) : Prop :=
  ∀ i < k, i < l.length → P (l.eraseIdx i)

/-- What passes passes with fewer members. -/
def PassesBelow (P : List α → Prop) (whole : List α) : Prop :=
  ∀ l l' : List α, l.Sublist l' → l'.Sublist whole → P l' → P l

theorem eraseIdx_eraseIdx_sublist (l : List α) : ∀ i k : ℕ, i < k →
    ((l.eraseIdx k).eraseIdx i).Sublist (l.eraseIdx i) := by
  induction l with
  | nil => exact fun _ _ _ => List.Sublist.refl _
  | cons a l ih =>
    intro i k hik
    cases k with
    | zero => exact absurd hik (Nat.not_lt_zero i)
    | succ k =>
      cases i with
      | zero => exact List.eraseIdx_sublist l k
      | succ i => exact (ih i k (by omega)).cons_cons a

theorem neededBefore_zero : NeededBefore P 0 l := fun _ hi => absurd hi (Nat.not_lt_zero _)

/-- A member without which the rest passes is kept. -/
theorem NeededBefore.keep (h : NeededBefore P k l) (hpass : P (l.eraseIdx k)) :
    NeededBefore P (k + 1) l := by
  intro i hi hlt
  rcases Nat.lt_succ_iff_lt_or_eq.1 hi with hik | rfl
  · exact h i hik hlt
  · exact hpass

/-- After another member is dropped the kept ones are still needed. -/
theorem NeededBefore.drop (hbelow : PassesBelow P whole) (hl : l.Sublist whole)
    (h : NeededBefore P k l) (hk : k < l.length) : NeededBefore P k (l.eraseIdx k) := by
  intro i hi hlt
  apply hbelow _ (l.eraseIdx i) (eraseIdx_eraseIdx_sublist l i k hi)
  · exact (List.eraseIdx_sublist l i).trans hl
  · exact h i hi (by omega)

/-- At the end of the list every member is needed. -/
theorem NeededBefore.all (h : NeededBefore P k l) (hk : l.length ≤ k) :
    ∀ i < l.length, P (l.eraseIdx i) :=
  fun i hi => h i (by omega) hi

end FrankenSim.Library
