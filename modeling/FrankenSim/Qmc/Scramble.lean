import FrankenSim.Qmc.Directions

/-!
# Nested scrambles

Every digit is flipped by a word that depends on the digits above it, so that words share
leading digits exactly when their scrambled words do.
-/
namespace FrankenSim.Qmc

open Library

def digitsAbove (x : BitVec 32) (b : ℕ) : BitVec 32 :=
  if b = 0 then 0 else x >>> (31 - b + 1)

theorem bitOf_and_one (x : BitVec 32) (i : ℕ) :
    bitOf (x &&& 1) i = if i = 0 then bitOf x 0 else 0 := by
  have hone : (1 : BitVec 32).getLsbD i = decide (i = 0) := by
    change (1#32).getLsbD i = _
    simp
  rw [bitOf, bitOf, BitVec.getLsbD_and, hone]
  by_cases h : i = 0
  · subst h
    simp
  · simp [h]

theorem bitOf_owenScramble (draw : Draw) (x dim : BitVec 32) {b : ℕ} (hb : b < 32) :
    bitOf (owenScramble draw x dim) (31 - b) =
      bitOf x (31 - b) + bitOf (draw dim b (digitsAbove x b)) 0 := by
  have hscan : ∀ n ≤ 32, ∀ b < 32, bitOf ((List.range n).foldl (fun y b =>
      y ||| ((((x >>> (31 - b)) &&& 1) ^^^ (draw dim b (digitsAbove x b) &&& 1)) <<< (31 - b))) 0)
      (31 - b) = if b < n then bitOf x (31 - b) + bitOf (draw dim b (digitsAbove x b)) 0 else 0 := by
    intro n hn
    induction n with
    | zero => simp
    | succ n ih =>
      intro b hb
      rw [List.range_succ, List.foldl_append, List.foldl_cons, List.foldl_nil]
      have hdigit : bitOf ((((x >>> (31 - n)) &&& 1) ^^^ (draw dim n (digitsAbove x n) &&& 1)) <<<
          (31 - n)) (31 - b) =
          if b = n then bitOf x (31 - n) + bitOf (draw dim n (digitsAbove x n)) 0 else 0 := by
        rw [bitOf_shiftLeft, bitOf_xor, bitOf_and_one, bitOf_and_one, bitOf_ushiftRight]
        by_cases heq : b = n
        · subst heq
          simp [show 31 - b < 32 by omega]
        · rw [if_neg heq]
          by_cases hle : 31 - n ≤ 31 - b
          · rw [if_pos ⟨by omega, hle⟩, if_neg (by omega), if_neg (by omega), add_zero]
          · rw [if_neg (by omega)]
      by_cases heq : b = n
      · subst heq
        rw [if_pos rfl] at hdigit
        rw [bitOf_or_of_left, hdigit, if_pos (by omega)]
        rw [ih (by omega) b hb, if_neg (lt_irrefl b)]
      · rw [if_neg heq] at hdigit
        rw [bitOf_or_of_right hdigit, ih (by omega) b hb]
        congr 1
        simp only [eq_iff_iff]
        omega
  have h := hscan 32 (le_refl _) b hb
  rw [if_pos hb] at h
  exact h

theorem digitsAbove_congr {x y : BitVec 32} {b : ℕ} (hb : b < 32)
    (h : ∀ i < b, bitOf x (31 - i) = bitOf y (31 - i)) : digitsAbove x b = digitsAbove y b := by
  rw [digitsAbove, digitsAbove]
  split_ifs with hzero
  · rfl
  · have hleading := (leading_eq_iff hb.le).2 h
    rwa [show 32 - b = 31 - b + 1 by omega] at hleading

theorem owenScramble_leading (draw : Draw) (dim x y : BitVec 32) {j : ℕ} (hj : j ≤ 32) :
    owenScramble draw x dim >>> (32 - j) = owenScramble draw y dim >>> (32 - j) ↔
      x >>> (32 - j) = y >>> (32 - j) := by
  rw [leading_eq_iff hj, leading_eq_iff hj]
  induction j with
  | zero => simp
  | succ j ih =>
    have hlast : (∀ i < j, bitOf x (32 - 1 - i) = bitOf y (32 - 1 - i)) →
        (bitOf (owenScramble draw x dim) (32 - 1 - j) = bitOf (owenScramble draw y dim) (32 - 1 - j) ↔
          bitOf x (32 - 1 - j) = bitOf y (32 - 1 - j)) := by
      intro hsame
      rw [bitOf_owenScramble draw x dim (by omega), bitOf_owenScramble draw y dim (by omega),
        digitsAbove_congr (by omega) hsame, add_left_inj]
    rw [Nat.forall_lt_succ_right, Nat.forall_lt_succ_right, ih (by omega)]
    exact and_congr_right hlast

theorem owenScramble_bijective (draw : Draw) (dim : BitVec 32) :
    Function.Bijective fun x => owenScramble draw x dim := by
  have hfinite : Finite (BitVec 32) :=
    Finite.of_injective BitVec.toFin fun x y h => BitVec.toFin_inj.1 h
  apply Finite.injective_iff_bijective.1
  intro x y h
  have himages : owenScramble draw x dim = owenScramble draw y dim := h
  have hleading := (owenScramble_leading draw dim x y (le_refl 32)).1 (by rw [himages])
  simpa using hleading

end FrankenSim.Qmc
