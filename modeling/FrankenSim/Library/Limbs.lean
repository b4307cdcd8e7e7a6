import Mathlib.Data.List.DropRight
import Mathlib.Data.Nat.Digits.Lemmas
import Mathlib.Tactic

/-!
# Numerals of little-endian limbs

A limb vector may carry zero limbs at its high end. Without them it is the list of digits of
its value, so that equal values have equal vectors and longer vectors are greater.
-/
namespace FrankenSim.Library

variable {b : ℕ} {l l' : List ℕ}

/-- One limb changes. -/
theorem ofDigits_set (b : ℕ) {l : List ℕ} {i : ℕ} (x : ℕ) (hi : i < l.length) :
    Nat.ofDigits b (l.set i x) + l[i] * b ^ i = Nat.ofDigits b l + x * b ^ i := by
  have hsplit : l = l.take i ++ l[i] :: l.drop (i + 1) := by
    rw [← List.drop_eq_getElem_cons hi, List.take_append_drop]
  have hset : l.set i x = l.take i ++ x :: l.drop (i + 1) := by
    rw [List.set_eq_take_append_cons_drop, if_pos hi]
  have hlength : (l.take i).length = i := List.length_take_of_le hi.le
  have hvalue := congrArg (Nat.ofDigits b) hsplit
  rw [Nat.ofDigits_append, Nat.ofDigits_cons, hlength] at hvalue
  rw [hvalue, hset, Nat.ofDigits_append, Nat.ofDigits_cons, hlength]
  ring

/-- A limb takes the low part of a sum, and the rest is carried to the next position. -/
theorem ofDigits_set_mod (b : ℕ) {l : List ℕ} {i : ℕ} (wide : ℕ) (hi : i < l.length) :
    Nat.ofDigits b (l.set i (wide % b)) + wide / b * b ^ (i + 1) + l[i] * b ^ i =
      Nat.ofDigits b l + wide * b ^ i := by
  have hset := ofDigits_set b (wide % b) hi
  have hwide : wide * b ^ i = wide % b * b ^ i + wide / b * b ^ (i + 1) := by
    conv_lhs => rw [← Nat.mod_add_div wide b]
    ring
  omega

@[simp]
theorem ofDigits_concat_zero (b : ℕ) (l : List ℕ) :
    Nat.ofDigits b (l ++ [0]) = Nat.ofDigits b l := by
  rw [Nat.ofDigits_append, Nat.ofDigits_singleton, mul_zero, add_zero]

/-- The value of a limb vector from a position on. -/
theorem ofDigits_drop (b : ℕ) {l : List ℕ} {i : ℕ} (hi : i < l.length) :
    Nat.ofDigits b (l.drop i) = l[i] + b * Nat.ofDigits b (l.drop (i + 1)) := by
  rw [List.drop_eq_getElem_cons hi, Nat.ofDigits_cons]

/-- Without the zero limbs at the high end. -/
def trimmed (l : List ℕ) : List ℕ := l.rdropWhile (· = 0)

theorem ofDigits_trimmed (b : ℕ) (l : List ℕ) : Nat.ofDigits b (trimmed l) = Nat.ofDigits b l := by
  induction l using List.reverseRecOn with
  | nil => rfl
  | append_singleton l x ih =>
    rw [trimmed, List.rdropWhile_concat]
    by_cases hx : x = 0
    · subst hx
      rw [ofDigits_concat_zero, if_pos (by simp)]
      exact ih
    · rw [if_neg (by simpa using hx)]

/-- The digits of a value are its only limb vector without high zero limbs. -/
theorem trimmed_eq_digits (hb : 1 < b) (h : ∀ x ∈ l, x < b) :
    trimmed l = Nat.digits b (Nat.ofDigits b l) := by
  rw [← ofDigits_trimmed, Nat.digits_ofDigits b hb]
  · intro x hx
    exact h x ((List.rdropWhile_prefix _ l).subset hx)
  · intro hne
    have hlast := List.rdropWhile_last_not (fun x : ℕ => decide (x = 0)) l hne
    rw [decide_eq_true_eq] at hlast
    exact hlast

/-- Canonical limbs: in range, and the high limb is not zero. -/
def CanonicalLimbs (b : ℕ) (l : List ℕ) : Prop := (∀ x ∈ l, x < b) ∧ l.getLast? ≠ some 0

theorem canonicalLimbs_iff (hb : 1 < b) :
    CanonicalLimbs b l ↔ l = Nat.digits b (Nat.ofDigits b l) := by
  constructor
  · rintro ⟨hlt, hlast⟩
    rw [Nat.digits_ofDigits b hb l hlt]
    intro hne hzero
    rw [List.getLast?_eq_some_getLast hne, hzero] at hlast
    exact hlast rfl
  · intro h
    refine ⟨fun x hx => ?_, ?_⟩
    · rw [h] at hx
      exact Nat.digits_lt_base hb hx
    · intro hlast
      have hne : l ≠ [] := by
        rintro rfl
        simp at hlast
      rw [List.getLast?_eq_some_getLast hne, Option.some.injEq] at hlast
      have hvalue : Nat.ofDigits b l ≠ 0 := by
        intro hzero
        rw [hzero, Nat.digits_zero] at h
        exact hne h
      have hdigit := Nat.getLast_digit_ne_zero b hvalue
      simp only [← h] at hdigit
      exact hdigit hlast

theorem ofDigits_lt_pow (hb : 1 < b) (h : ∀ x ∈ l, x < b) : Nat.ofDigits b l < b ^ l.length :=
  Nat.ofDigits_lt_base_pow_length hb h

/-- Equally long vectors compare from the high end on. -/
theorem compare_ofDigits (hb : 1 < b) (hl : ∀ x ∈ l, x < b) (hl' : ∀ x ∈ l', x < b)
    (hlength : l.length = l'.length) {x y : ℕ} :
    compare (Nat.ofDigits b (l ++ [x])) (Nat.ofDigits b (l' ++ [y])) =
      (compare x y).then (compare (Nat.ofDigits b l) (Nat.ofDigits b l')) := by
  have hlt := ofDigits_lt_pow hb hl
  have hlt' := ofDigits_lt_pow hb hl'
  rw [Nat.ofDigits_append, Nat.ofDigits_append, Nat.ofDigits_singleton, Nat.ofDigits_singleton]
  rw [← hlength] at hlt' ⊢
  rcases lt_trichotomy x y with hxy | rfl | hxy
  · rw [compare_lt_iff_lt.2 hxy]
    have hstep : b ^ l.length * (x + 1) ≤ b ^ l.length * y := Nat.mul_le_mul_left _ hxy
    rw [mul_add, mul_one] at hstep
    exact compare_lt_iff_lt.2 (by omega)
  · rw [compare_eq_iff_eq.2 rfl]
    simp [compare, compareOfLessAndEq]
  · rw [compare_gt_iff_gt.2 hxy]
    have hstep : b ^ l.length * (y + 1) ≤ b ^ l.length * x := Nat.mul_le_mul_left _ hxy
    rw [mul_add, mul_one] at hstep
    exact compare_gt_iff_gt.2 (by omega)

/-- Limb by limb from the high end, equally long vectors compare as their values. -/
theorem compareLex_reverse (hb : 1 < b) (hl : ∀ x ∈ l, x < b) (hl' : ∀ x ∈ l', x < b)
    (hlength : l.length = l'.length) :
    List.compareLex compare l.reverse l'.reverse =
      compare (Nat.ofDigits b l) (Nat.ofDigits b l') := by
  induction l using List.reverseRecOn generalizing l' with
  | nil =>
    obtain rfl : l' = [] := List.length_eq_zero_iff.1 hlength.symm
    rw [List.reverse_nil, List.compareLex_nil_nil, compare_eq_iff_eq.2 rfl]
  | append_singleton l x ih =>
    obtain rfl | ⟨l', y, rfl⟩ := List.eq_nil_or_concat' l'
    · simp at hlength
    · have hlength' : l.length = l'.length := by simpa using hlength
      have hlow := fun z hz => hl z (List.mem_append_left _ hz)
      have hlow' := fun z hz => hl' z (List.mem_append_left _ hz)
      rw [List.reverse_append, List.reverse_append, List.reverse_singleton,
        List.reverse_singleton, List.singleton_append, List.singleton_append,
        List.compareLex_cons_cons, ih hlow hlow' hlength',
        compare_ofDigits hb hlow hlow' hlength']

end FrankenSim.Library
