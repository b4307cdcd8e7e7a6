import Mathlib.Algebra.Polynomial.Roots
import Mathlib.Algebra.Polynomial.Taylor
import Mathlib.RingTheory.Coprime.Lemmas

/-!
# Linear systems of binomial coefficients

The coefficients of a polynomial of degree below `a + b` vanish when its first `a`
coefficients at `0` and its first `b` coefficients at `1` do: it is divisible by
`X ^ a * (X - 1) ^ b`.
-/
namespace FrankenSim.Library

open Polynomial

variable {F : Type*} [Field F]

theorem pascal_system {a b : ℕ} {g : ℕ → F} (hfirst : ∀ k < a, g k = 0)
    (hpascal : ∀ j < b, ∑ k ∈ Finset.range (a + b), (k.choose j : F) * g k = 0) :
    ∀ k < a + b, g k = 0 := by
  have hcoeff : ∀ k, (∑ i ∈ Finset.range (a + b), C (g i) * X ^ i).coeff k =
      if k < a + b then g k else 0 := by
    intro k
    simp [coeff_C_mul, coeff_X_pow]
  generalize hp : ∑ i ∈ Finset.range (a + b), C (g i) * X ^ i = p at hcoeff
  have hzero : X ^ a ∣ p := by
    rw [X_pow_dvd_iff]
    intro k hk
    rw [hcoeff, hfirst k hk, ite_self]
  have hone : (X - C 1) ^ b ∣ p := by
    rw [X_sub_C_pow_dvd_iff, X_pow_dvd_iff]
    intro j hj
    rw [← taylor_apply, taylor_coeff, ← hp, map_sum, eval_finsetSum]
    rw [← hpascal j hj]
    apply Finset.sum_congr rfl
    intro k _
    rw [C_mul_X_pow_eq_monomial, hasseDeriv_monomial, eval_monomial, one_pow, mul_one]
  have hcoprime : IsCoprime (X ^ a : F[X]) ((X - C 1) ^ b) := by
    apply IsCoprime.pow
    have hunit : IsUnit ((0 : F) - 1) := by simp
    simpa using isCoprime_X_sub_C_of_isUnit_sub hunit
  have hdvd := hcoprime.mul_dvd hzero hone
  have hnone : p = 0 := by
    by_contra hne
    have hle := natDegree_le_of_dvd hdvd hne
    have hmonic : ((X ^ a : F[X]) * (X - C 1) ^ b).natDegree = a + b := by
      rw [natDegree_mul (pow_ne_zero _ X_ne_zero) (pow_ne_zero _ (X_sub_C_ne_zero 1)),
        natDegree_X_pow, natDegree_pow, natDegree_X_sub_C, mul_one]
    have hlt : p.natDegree < a + b := by
      rw [natDegree_lt_iff_degree_lt hne, degree_lt_iff_coeff_zero]
      intro k hk
      rw [hcoeff, if_neg (not_lt.2 hk)]
    omega
  intro k hk
  have hvalue := hcoeff k
  rw [hnone, coeff_zero, if_pos hk] at hvalue
  exact hvalue.symm

end FrankenSim.Library
