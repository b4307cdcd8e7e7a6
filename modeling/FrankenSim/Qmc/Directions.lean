import FrankenSim.Library.BitParities
import FrankenSim.Qmc.Sobol
import Mathlib.Algebra.BigOperators.Ring.Finset

/-!
# Direction numbers

Odd initial values make the directions unitriangular: `v[k]` has the digit `k` and no later
one. The directions of the second dimension are the rows of the Pascal triangle.
-/
namespace FrankenSim.Qmc

open Library

/-- Direction `k` has digit `k` and none behind it. -/
structure Unitriangular (v : List (BitVec 32)) : Prop where
  diagonal : ∀ k < 32, bitOf (v.getD k 0) (31 - k) = 1
  below : ∀ k < 32, ∀ i < 31 - k, bitOf (v.getD k 0) i = 0

section Recurrence

variable {s a : ℕ} {m : List (BitVec 32)}

@[simp]
theorem length_directionsUpTo (n : ℕ) : (directionsUpTo s a m n).length = n := by
  induction n with
  | zero => rfl
  | succ n ih => rw [directionsUpTo, List.length_append, ih, List.length_singleton]

theorem getD_directionsUpTo {n k : ℕ} (hk : k < n) :
    (directionsUpTo s a m n).getD k 0 = nextDirection s a m (directionsUpTo s a m k) k := by
  induction n with
  | zero => omega
  | succ n ih =>
    rw [directionsUpTo]
    rcases Nat.lt_succ_iff_lt_or_eq.1 hk with hlt | rfl
    · rw [List.getD_append _ _ _ _ (by simpa using hlt), ih hlt]
    · rw [List.getD_append_right _ _ _ _ (by simp)]
      simp

theorem bitOf_shiftLeft (x : BitVec 32) (n i : ℕ) :
    bitOf (x <<< n) i = if i < 32 ∧ n ≤ i then bitOf x (i - n) else 0 := by
  rw [bitOf, BitVec.getLsbD_shiftLeft]
  by_cases hi : i < 32
  · by_cases hn : n ≤ i
    · simp [hi, hn, bitOf]
    · simp [hi, hn, not_le.1 hn]
  · simp [hi]

/-- The sum over the coefficients leaves a bit that none of its terms has. -/
theorem bitOf_foldl_xor {v : List (BitVec 32)} {p k : ℕ} (l : List ℕ) (val : BitVec 32)
    (h : ∀ i ∈ l, bitOf (v.getD (k - i) 0) p = 0) :
    bitOf (l.foldl (fun val i => if a.testBit (s - 1 - i) then val ^^^ v.getD (k - i) 0 else val)
      val) p = bitOf val p := by
  induction l generalizing val with
  | nil => rfl
  | cons i l ih =>
    rw [List.forall_mem_cons] at h
    rw [List.foldl_cons, ih _ h.2]
    split
    · rw [bitOf_xor, h.1, add_zero]
    · rfl

theorem unitriangular_directions (hs : 0 < s) (hodd : ∀ k < s, bitOf (m.getD k 0) 0 = 1) :
    Unitriangular (directionsUpTo s a m 32) := by
  have hall : ∀ k < 32, bitOf ((directionsUpTo s a m 32).getD k 0) (31 - k) = 1 ∧
      ∀ i < 31 - k, bitOf ((directionsUpTo s a m 32).getD k 0) i = 0 := by
    intro k hk
    induction k using Nat.strong_induction_on with
    | _ k ih =>
      rw [getD_directionsUpTo hk, nextDirection]
      split_ifs with hinitial
      · constructor
        · rw [bitOf_shiftLeft, if_pos ⟨by omega, le_refl _⟩, Nat.sub_self]
          exact hodd k hinitial
        · intro i hi
          rw [bitOf_shiftLeft, if_neg (by omega)]
      · -- only the shifted direction reaches digit `k`
        have hearlier : ∀ i, 0 < i → i ≤ s → ∀ p < 31 - (k - i),
            bitOf ((directionsUpTo s a m k).getD (k - i) 0) p = 0 := by
          intro i hi his p hp
          rw [getD_directionsUpTo (show k - i < k by omega)]
          have hzero := (ih (k - i) (by omega) (by omega)).2 p hp
          rwa [getD_directionsUpTo (show k - i < 32 by omega)] at hzero
        have hterms : ∀ p ≤ 31 - k, ∀ i ∈ List.range' 1 (s - 1),
            bitOf ((directionsUpTo s a m k).getD (k - i) 0) p = 0 := by
          intro p hp i hi
          rw [List.mem_range'_1] at hi
          exact hearlier i (by omega) (by omega) p (by omega)
        constructor
        · rw [bitOf_foldl_xor _ _ (hterms _ (le_refl _)), bitOf_xor, bitOf_ushiftRight,
            hearlier s hs (le_refl s) _ (by omega), zero_add,
            show s + (31 - k) = 31 - (k - s) by omega,
            getD_directionsUpTo (show k - s < k by omega)]
          have hone := (ih (k - s) (by omega) (by omega)).1
          rwa [getD_directionsUpTo (show k - s < 32 by omega)] at hone
        · intro i hi
          rw [bitOf_foldl_xor _ _ (hterms _ hi.le), bitOf_xor, bitOf_ushiftRight,
            hearlier s hs (le_refl s) _ (by omega), hearlier s hs (le_refl s) _ (by omega),
            add_zero]
  exact ⟨fun k hk => (hall k hk).1, fun k hk => (hall k hk).2⟩

end Recurrence

theorem bitOf_one (i : ℕ) : bitOf (1 : BitVec 32) i = if i = 0 then 1 else 0 := by
  change bitOf 1#32 i = _
  rw [bitOf, BitVec.getLsbD_one]
  simp

theorem getD_vanDerCorput {k : ℕ} (hk : k < 32) :
    vanDerCorput.getD k 0 = (1 : BitVec 32) <<< (31 - k) := by
  rw [vanDerCorput, List.getD_eq_getElem?_getD, List.getElem?_map, List.getElem?_range hk]
  rfl

theorem bitOf_vanDerCorput {k i : ℕ} (hk : k < 32) :
    bitOf (vanDerCorput.getD k 0) i = if i = 31 - k then 1 else 0 := by
  rw [getD_vanDerCorput hk, bitOf_shiftLeft, bitOf_one]
  split_ifs
  all_goals first | rfl | omega

theorem unitriangular_vanDerCorput : Unitriangular vanDerCorput := by
  constructor
  · intro k hk
    rw [bitOf_vanDerCorput hk, if_pos rfl]
  · intro k hk i hi
    rw [bitOf_vanDerCorput hk, if_neg (by omega)]

/-- The second dimension: digit `j` of direction `k` is a binomial coefficient. -/
theorem bitOf_pascal {k j : ℕ} (hk : k < 32) (hj : j < 32) :
    bitOf ((directionsUpTo 1 0 [1] 32).getD k 0) (31 - j) = (k.choose j : ZMod 2) := by
  induction k generalizing j with
  | zero =>
    rw [getD_directionsUpTo hk, nextDirection, if_pos one_pos]
    change bitOf ((1 : BitVec 32) <<< 31) (31 - j) = _
    rw [bitOf_shiftLeft, bitOf_one]
    cases j with
    | zero => simp
    | succ j =>
      rw [if_neg (by omega)]
      simp
  | succ k ih =>
    have hstep : (directionsUpTo 1 0 [1] 32).getD (k + 1) 0 =
        (directionsUpTo 1 0 [1] 32).getD k 0 ^^^ ((directionsUpTo 1 0 [1] 32).getD k 0 >>> 1) := by
      rw [getD_directionsUpTo hk, nextDirection, if_neg (by omega), Nat.add_sub_cancel,
        getD_directionsUpTo (show k < k + 1 by omega), getD_directionsUpTo (show k < 32 by omega)]
      rfl
    rw [hstep, bitOf_xor, bitOf_ushiftRight]
    cases j with
    | zero =>
      rw [ih (by omega) hj, bitOf_of_ge (by omega)]
      simp
    | succ j =>
      rw [show 1 + (31 - (j + 1)) = 31 - j by omega, ih (by omega) hj, ih (by omega) (by omega),
        Nat.choose_succ_succ, Nat.cast_add, add_comm]

section Combine

variable {v : List (BitVec 32)}

theorem bitOf_combine (v : List (BitVec 32)) (gray : BitVec 32) (p : ℕ) :
    bitOf (combine v gray) p =
      ∑ k ∈ Finset.range 32, bitOf gray k * bitOf (v.getD k 0) p := by
  have hscan : ∀ n, bitOf ((List.range n).foldl
      (fun x k => if gray.getLsbD k then x ^^^ v.getD k 0 else x) 0) p =
      ∑ k ∈ Finset.range n, bitOf gray k * bitOf (v.getD k 0) p := by
    intro n
    induction n with
    | zero => simp
    | succ n ih =>
      rw [List.range_succ, List.foldl_append, Finset.sum_range_succ, ← ih]
      simp only [List.foldl_cons, List.foldl_nil]
      cases hbit : gray.getLsbD n with
      | false =>
        rw [bitOf_eq_zero.2 hbit, zero_mul, add_zero]
        rfl
      | true =>
        rw [bitOf_eq_one.2 hbit, one_mul, if_pos rfl, bitOf_xor]
  exact hscan 32

theorem combine_xor (gray gray' : BitVec 32) :
    combine v (gray ^^^ gray') = combine v gray ^^^ combine v gray' := by
  apply eq_of_bitOf
  intro p _
  rw [bitOf_xor, bitOf_combine, bitOf_combine, bitOf_combine, ← Finset.sum_add_distrib]
  apply Finset.sum_congr rfl
  intro k _
  rw [bitOf_xor, add_mul]

theorem bitOf_grayCode (n : BitVec 32) (k : ℕ) :
    bitOf (grayCode n) k = bitOf n k + bitOf n (k + 1) := by
  rw [grayCode, bitOf_xor, bitOf_ushiftRight, add_comm 1 k]

theorem grayCode_xor (n n' : BitVec 32) : grayCode (n ^^^ n') = grayCode n ^^^ grayCode n' := by
  apply eq_of_bitOf
  intro i _
  simp only [bitOf_xor, bitOf_grayCode]
  ring

/-- The most significant bit makes the last digit. -/
theorem bitOf_combine_top (h : Unitriangular v) {gray : BitVec 32} {t : ℕ} (ht : t < 32)
    (htop : bitOf gray t = 1) (hlast : ∀ k, t < k → bitOf gray k = 0) :
    bitOf (combine v gray) (31 - t) = 1 := by
  rw [bitOf_combine, Finset.sum_eq_single t]
  · rw [htop, h.diagonal t ht, one_mul]
  · intro k hk hne
    rw [Finset.mem_range] at hk
    rcases lt_or_gt_of_ne hne with hlt | hgt
    · rw [h.below k hk (31 - t) (by omega), mul_zero]
    · rw [hlast k hgt, zero_mul]
  · intro hnot
    exact absurd (Finset.mem_range.2 ht) hnot

end Combine

end FrankenSim.Qmc
