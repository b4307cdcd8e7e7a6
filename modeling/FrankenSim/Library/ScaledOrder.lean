import Mathlib.Algebra.Order.Field.Power
import Mathlib.Algebra.Order.Field.Rat
import Mathlib.Data.Nat.Size
import Mathlib.Tactic

/-!
# The order of scaled integers

A natural number times a power of two, the power possibly negative. The place of the top bit
decides the order; on equal places the numbers are aligned at the lower power.
-/
namespace FrankenSim.Library

/-- `s * 2 ^ e`. -/
def scaled (s : ℕ) (e : ℤ) : ℚ := s * 2 ^ e

variable {s t k : ℕ} {e f : ℤ}

@[simp]
theorem scaled_zero (e : ℤ) : scaled 0 e = 0 := by simp [scaled]

theorem scaled_pos (hs : 0 < s) (e : ℤ) : 0 < scaled s e :=
  mul_pos (Nat.cast_pos.2 hs) (zpow_pos (by norm_num) e)

theorem scaled_nonneg (s : ℕ) (e : ℤ) : 0 ≤ scaled s e :=
  mul_nonneg (Nat.cast_nonneg s) (zpow_nonneg (by norm_num) e)

theorem scaled_mul (s t : ℕ) (e f : ℤ) : scaled s e * scaled t f = scaled (s * t) (e + f) := by
  rw [scaled, scaled, scaled, Nat.cast_mul, zpow_add₀ two_ne_zero]
  ring

/-- Bits move between the number and its power. -/
theorem scaled_add (s k : ℕ) (e : ℤ) : scaled s (e + k) = scaled (s * 2 ^ k) e := by
  rw [scaled, scaled, zpow_add₀ two_ne_zero, zpow_natCast, Nat.cast_mul, Nat.cast_pow,
    Nat.cast_ofNat]
  ring

theorem scaled_lt_scaled (e : ℤ) : scaled s e < scaled t e ↔ s < t := by
  rw [scaled, scaled, mul_lt_mul_iff_left₀ (zpow_pos (by norm_num) e), Nat.cast_lt]

theorem compare_scaled (s t : ℕ) (e : ℤ) : compare (scaled s e) (scaled t e) = compare s t := by
  rcases lt_trichotomy s t with h | rfl | h
  · rw [compare_lt_iff_lt.2 h, compare_lt_iff_lt.2 ((scaled_lt_scaled e).2 h)]
  · rw [compare_eq_iff_eq.2 rfl, compare_eq_iff_eq.2 rfl]
  · rw [compare_gt_iff_gt.2 h, compare_gt_iff_gt.2 ((scaled_lt_scaled e).2 h)]

/-- The lower top bit belongs to the smaller number. -/
theorem scaled_lt_of_top (ht : 0 < t) (h : (Nat.size s : ℤ) + e < Nat.size t + f) :
    scaled s e < scaled t f := by
  have hupper : scaled s e < 2 ^ ((Nat.size s : ℤ) + e) := by
    rw [zpow_add₀ two_ne_zero, zpow_natCast]
    apply mul_lt_mul_of_pos_right _ (zpow_pos (by norm_num) e)
    exact_mod_cast Nat.lt_size_self s
  have hsize : 0 < Nat.size t := Nat.size_pos.2 ht
  have hlower : (2 : ℚ) ^ ((Nat.size t : ℤ) + f - 1) ≤ scaled t f := by
    have hsplit : (Nat.size t : ℤ) + f - 1 = (Nat.size t - 1 : ℕ) + f := by omega
    rw [hsplit, zpow_add₀ two_ne_zero, zpow_natCast]
    apply mul_le_mul_of_nonneg_right _ (zpow_nonneg (by norm_num) f)
    exact_mod_cast Nat.lt_size.1 (by omega)
  have hpow : (2 : ℚ) ^ ((Nat.size s : ℤ) + e) ≤ 2 ^ ((Nat.size t : ℤ) + f - 1) :=
    zpow_le_zpow_right₀ (by norm_num) (by omega)
  exact hupper.trans_le (hpow.trans hlower)

/-- Aligned numbers of equal top bits fit the bits of the other one. -/
theorem aligned_lt (hs : 0 < s) (h : (Nat.size s : ℤ) + e = Nat.size t + f)
    (hk : e = f + k) : s * 2 ^ k < 2 ^ Nat.size t := by
  have hsize : Nat.size s + k = Nat.size t := by omega
  rw [← hsize, pow_add]
  exact Nat.mul_lt_mul_of_pos_right (Nat.lt_size_self s) (Nat.two_pow_pos k)

end FrankenSim.Library
