import Mathlib.Algebra.BigOperators.Group.Finset.Basic
import Mathlib.Data.Nat.Bitwise
import Mathlib.Data.ZMod.Basic
import Mathlib.Tactic

/-!
# Bits as numbers modulo two

Exclusive or adds bits, so that linear maps on words are sums. Words that agree in their
leading digits are those whose leading parts are equal.
-/
namespace FrankenSim.Library

variable {w : ℕ}

/-- A bit of a word as a number modulo two. -/
def bitOf (x : BitVec w) (i : ℕ) : ZMod 2 := if x.getLsbD i then 1 else 0

theorem bitOf_eq_one {x : BitVec w} {i : ℕ} : bitOf x i = 1 ↔ x.getLsbD i = true := by
  unfold bitOf
  cases x.getLsbD i
  · simp
  · simp

theorem bitOf_eq_zero {x : BitVec w} {i : ℕ} : bitOf x i = 0 ↔ x.getLsbD i = false := by
  unfold bitOf
  cases x.getLsbD i
  · simp
  · simp

theorem bitOf_eq_bitOf {x y : BitVec w} {i j : ℕ} :
    bitOf x i = bitOf y j ↔ x.getLsbD i = y.getLsbD j := by
  unfold bitOf
  cases x.getLsbD i <;> cases y.getLsbD j <;> simp

theorem bitOf_of_ge {x : BitVec w} {i : ℕ} (h : w ≤ i) : bitOf x i = 0 :=
  bitOf_eq_zero.2 (BitVec.getLsbD_of_ge x i h)

@[simp]
theorem bitOf_zero (i : ℕ) : bitOf 0#w i = 0 := by simp [bitOf]

@[simp]
theorem bitOf_xor (x y : BitVec w) (i : ℕ) : bitOf (x ^^^ y) i = bitOf x i + bitOf y i := by
  rw [bitOf, bitOf, bitOf, BitVec.getLsbD_xor]
  cases x.getLsbD i <;> cases y.getLsbD i <;> decide

theorem bitOf_or_of_right {x y : BitVec w} {i : ℕ} (h : bitOf y i = 0) :
    bitOf (x ||| y) i = bitOf x i := by
  rw [bitOf_eq_zero] at h
  rw [bitOf, bitOf, BitVec.getLsbD_or, h, Bool.or_false]

theorem bitOf_or_of_left {x y : BitVec w} {i : ℕ} (h : bitOf x i = 0) :
    bitOf (x ||| y) i = bitOf y i := by
  rw [bitOf_eq_zero] at h
  rw [bitOf, bitOf, BitVec.getLsbD_or, h, Bool.false_or]

@[simp]
theorem bitOf_ushiftRight (x : BitVec w) (n i : ℕ) : bitOf (x >>> n) i = bitOf x (n + i) := by
  rw [bitOf, bitOf, BitVec.getLsbD_ushiftRight]

theorem eq_of_bitOf {x y : BitVec w} (h : ∀ i < w, bitOf x i = bitOf y i) : x = y :=
  BitVec.eq_of_getLsbD_eq fun i hi => bitOf_eq_bitOf.1 (h i hi)

theorem xor_eq_zero {x y : BitVec w} (h : x ^^^ y = 0#w) : x = y := by
  apply eq_of_bitOf
  intro i _
  have hsum : bitOf x i + bitOf y i = 0 := by rw [← bitOf_xor, h, bitOf_zero]
  exact CharTwo.add_eq_zero.1 hsum

/-- A word that is not zero has a most significant bit. -/
theorem exists_top {x : BitVec w} (h : x ≠ 0#w) :
    ∃ t < w, bitOf x t = 1 ∧ ∀ k, t < k → bitOf x k = 0 := by
  have hne : x.toNat ≠ 0 := fun hzero => h (BitVec.eq_of_toNat_eq (by simpa using hzero))
  obtain ⟨t, ht, hlast⟩ := Nat.exists_most_significant_bit hne
  refine ⟨t, ?_, bitOf_eq_one.2 ht, fun k hk => bitOf_eq_zero.2 (hlast k hk)⟩
  by_contra hge
  have hnone := BitVec.getLsbD_of_ge x t (not_lt.1 hge)
  exact absurd ht (Bool.eq_false_iff.1 hnone)

/-- Words in the same block differ in low bits only. -/
theorem bitOf_xor_of_block {m : ℕ} {x y : BitVec w} (h : x.toNat / 2 ^ m = y.toNat / 2 ^ m)
    {k : ℕ} (hk : m ≤ k) : bitOf (x ^^^ y) k = 0 := by
  have hbit : x.toNat.testBit k = y.toNat.testBit k := by
    have hsame : ∀ z : ℕ, z.testBit k = (z / 2 ^ m).testBit (k - m) := by
      intro z
      rw [← Nat.shiftRight_eq_div_pow, Nat.testBit_shiftRight]
      congr 1
      omega
    rw [hsame, h, ← hsame]
  rw [bitOf_xor, CharTwo.add_eq_zero]
  exact bitOf_eq_bitOf.2 hbit

theorem ushiftRight_eq_iff {x y : BitVec w} {n : ℕ} :
    x >>> n = y >>> n ↔ x.toNat / 2 ^ n = y.toNat / 2 ^ n := by
  rw [← BitVec.toNat_inj, BitVec.toNat_ushiftRight, BitVec.toNat_ushiftRight,
    Nat.shiftRight_eq_div_pow, Nat.shiftRight_eq_div_pow]

/-- Equal leading parts are equal leading digits. -/
theorem leading_eq_iff {x y : BitVec w} {j : ℕ} (hj : j ≤ w) :
    x >>> (w - j) = y >>> (w - j) ↔ ∀ i < j, bitOf x (w - 1 - i) = bitOf y (w - 1 - i) := by
  constructor
  · intro h i hi
    have hbit := congrArg (fun z => bitOf z (j - 1 - i)) h
    simp only [bitOf_ushiftRight] at hbit
    rwa [show w - j + (j - 1 - i) = w - 1 - i by omega] at hbit
  · intro h
    apply eq_of_bitOf
    intro i hi
    rw [bitOf_ushiftRight, bitOf_ushiftRight]
    by_cases hlt : w - j + i < w
    · have hdigit := h (j - 1 - i) (by omega)
      rwa [show w - 1 - (j - 1 - i) = w - j + i by omega] at hdigit
    · rw [bitOf_of_ge (not_lt.1 hlt), bitOf_of_ge (not_lt.1 hlt)]

end FrankenSim.Library
