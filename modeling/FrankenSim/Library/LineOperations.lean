import Mathlib.LinearAlgebra.Matrix.Swap
import Mathlib.LinearAlgebra.Matrix.Transvection
import Mathlib.Tactic.Ring

/-!
# Elementary operations on integer tables

An operation acts on the rows of a table. The inverse matrix of the accumulated
operations changes along its columns at the same time. Both changes are products
with matrices that invert each other, and column operations are the transposed ones.
-/
namespace FrankenSim.Library

open Matrix

/-- Exchange two lines, subtract a multiple of another line, or change the sign of a line. -/
inductive LineOperation
  | swap (first second : ℕ)
  | subtract (target source : ℕ) (multiplier : ℤ)
  | negate (line : ℕ)

/-- The block of a table with the given extents. -/
def block (m n : ℕ) (D : ℕ → ℕ → ℤ) : Matrix (Fin m) (Fin n) ℤ :=
  Matrix.of fun i j => D i j

theorem block_flip (m n : ℕ) (D : ℕ → ℕ → ℤ) : block n m (flip D) = (block m n D)ᵀ := rfl

theorem swap_mul_apply {m n : ℕ} (a b : Fin m) (M : Matrix (Fin m) (Fin n) ℤ) (i : Fin m)
    (j : Fin n) : (Matrix.swap ℤ a b * M) i j = M (Equiv.swap a b i) j := by
  simp [Matrix.swap, PEquiv.toMatrix_toPEquiv_mul]

theorem mul_swap_apply {m n : ℕ} (a b : Fin n) (M : Matrix (Fin m) (Fin n) ℤ) (i : Fin m)
    (j : Fin n) : (M * Matrix.swap ℤ a b) i j = M i (Equiv.swap a b j) := by
  simp [Matrix.swap, PEquiv.mul_toMatrix_toPEquiv]

namespace LineOperation

/-- The operation names lines of the table, and a multiple of another line. -/
def Valid (m : ℕ) : LineOperation → Prop
  | swap first second => first < m ∧ second < m
  | subtract target source _ => target < m ∧ source < m ∧ target ≠ source
  | negate line => line < m

/-- The effect on the rows of a table. -/
def act : LineOperation → (ℕ → ℕ → ℤ) → ℕ → ℕ → ℤ
  | swap first second, D => fun r c =>
      if r = first then D second c else if r = second then D first c else D r c
  | subtract target source multiplier, D => fun r c =>
      if r = target then D target c - multiplier * D source c else D r c
  | negate line, D => fun r c => if r = line then -D line c else D r c

/-- The effect on the columns of the inverse. -/
def coact : LineOperation → (ℕ → ℕ → ℤ) → ℕ → ℕ → ℤ
  | swap first second, X => fun r c =>
      if c = first then X r second else if c = second then X r first else X r c
  | subtract target source multiplier, X => fun r c =>
      if c = source then X r source + multiplier * X r target else X r c
  | negate line, X => fun r c => if c = line then -X r line else X r c

/-- The inverse adds the target to the source. -/
theorem coact_subtract (target source : ℕ) (multiplier : ℤ) (X : ℕ → ℕ → ℤ) :
    (subtract target source multiplier).coact X =
      flip ((subtract source target (-multiplier)).act (flip X)) := by
  funext r c
  simp only [coact, act, flip, neg_mul, sub_neg_eq_add]

/-- Both effects are products with matrices that invert each other. -/
theorem exists_matrices {m : ℕ} (op : LineOperation) (h : op.Valid m) :
    ∃ E F : Matrix (Fin m) (Fin m) ℤ, E * F = 1 ∧ F * E = 1 ∧
      (∀ n D, block m n (op.act D) = E * block m n D) ∧
      ∀ n X, block n m (op.coact X) = block n m X * F := by
  cases op with
  | swap first second =>
    refine ⟨Matrix.swap ℤ ⟨first, h.1⟩ ⟨second, h.2⟩, Matrix.swap ℤ ⟨first, h.1⟩ ⟨second, h.2⟩,
      swap_mul_self _ _, swap_mul_self _ _, fun n D => ?_, fun n X => ?_⟩
    · ext i j
      rw [swap_mul_apply, Equiv.swap_apply_def]
      simp only [block, act, of_apply, Fin.ext_iff]
      split_ifs <;> rfl
    · ext i j
      rw [mul_swap_apply, Equiv.swap_apply_def]
      simp only [block, coact, of_apply, Fin.ext_iff]
      split_ifs <;> rfl
  | subtract target source multiplier =>
    obtain ⟨ht, hs, hne⟩ := h
    have hfin : (⟨target, ht⟩ : Fin m) ≠ ⟨source, hs⟩ := fun heq => hne (Fin.mk.inj heq)
    refine ⟨transvection ⟨target, ht⟩ ⟨source, hs⟩ (-multiplier),
      transvection ⟨target, ht⟩ ⟨source, hs⟩ multiplier, ?_, ?_, fun n D => ?_, fun n X => ?_⟩
    · rw [transvection_mul_transvection_same _ _ hfin, neg_add_cancel, transvection_zero]
    · rw [transvection_mul_transvection_same _ _ hfin, add_neg_cancel, transvection_zero]
    · ext i j
      by_cases hi : i = ⟨target, ht⟩
      · subst hi
        simp [block, act, sub_eq_add_neg]
      · rw [transvection_mul_apply_of_ne _ _ _ _ hi]
        have hval : i.val ≠ target := fun heq => hi (Fin.ext heq)
        simp [block, act, hval]
    · ext i j
      by_cases hj : j = ⟨source, hs⟩
      · subst hj
        simp [block, coact]
      · rw [mul_transvection_apply_of_ne _ _ _ _ hj]
        have hval : j.val ≠ source := fun heq => hj (Fin.ext heq)
        simp [block, coact, hval]
  | negate line =>
    refine ⟨Matrix.diagonal fun i => if i.val = line then -1 else 1,
      Matrix.diagonal fun i => if i.val = line then -1 else 1, ?_, ?_, fun n D => ?_,
      fun n X => ?_⟩
    · rw [diagonal_mul_diagonal, ← diagonal_one]
      congr 1
      funext i
      split_ifs <;> rfl
    · rw [diagonal_mul_diagonal, ← diagonal_one]
      congr 1
      funext i
      split_ifs <;> rfl
    · ext i j
      rw [diagonal_mul]
      by_cases hi : i.val = line <;> simp [block, act, hi]
    · ext i j
      rw [mul_diagonal]
      by_cases hj : j.val = line <;> simp [block, coact, hj]

end LineOperation

end FrankenSim.Library
