import FrankenSim.Revolve.Binomial
import Mathlib.Tactic.Linarith
import Mathlib.Tactic.Ring

/-!
# Capacities and costs

Away from overflow the loops compute what they stand for: the capacity is the
binomial coefficient, capped at `u64::MAX`, the repetition number is the least
one that suffices, and the cost is the closed formula.
-/
namespace FrankenSim.Revolve

open Library

def capacity (s r : ℕ) : ℕ := (s + r).choose s

section Capacity

theorem capacity_mono (s : ℕ) {r r' : ℕ} (h : r ≤ r') : capacity s r ≤ capacity s r' :=
  Nat.choose_le_choose s (Nat.add_le_add_left h s)

theorem capacity_zero (r : ℕ) : capacity 0 r = 1 := by simp [capacity]

theorem capacity_none (s : ℕ) : capacity s 0 = 1 := by simp [capacity]

theorem capacity_one (r : ℕ) : capacity 1 r = r + 1 := by simp [capacity, Nat.add_comm]

theorem capacity_pascal (s r : ℕ) :
    capacity (s + 1) (r + 1) = capacity s (r + 1) + capacity (s + 1) r := by
  unfold capacity
  rw [show s + 1 + (r + 1) = s + (r + 1) + 1 by ring, Nat.choose_succ_succ,
    show s + 1 + r = s + (r + 1) by ring]

theorem capacity_two (r : ℕ) : 2 * capacity 2 r = (r + 1) * (r + 2) := by
  induction r with
  | zero => rfl
  | succ r ih => rw [capacity_pascal, capacity_one, Nat.mul_add, ih]; ring

theorem capacity_three (r : ℕ) : 3 * capacity 3 r = (r + 1) * capacity 2 (r + 1) := by
  have h := Nat.choose_succ_right_eq (r + 3) 2
  simp only [capacity]
  rw [show 3 + r = r + 3 by ring, show 2 + (r + 1) = r + 3 by ring, Nat.mul_comm 3, h,
    Nat.mul_comm]
  rfl

/-- A further sweep adds a step at least. -/
theorem lt_capacity {s : ℕ} (hs : 1 ≤ s) (r : ℕ) : r < capacity s r := by
  obtain ⟨s, rfl⟩ := Nat.exists_eq_add_of_le' hs
  induction r with
  | zero => simp [capacity_none]
  | succ r ih =>
    have hpos : 0 < capacity s (r + 1) := Nat.choose_pos (Nat.le_add_right _ _)
    rw [capacity_pascal]
    omega

theorem capacity_succ_le (s r : ℕ) : capacity (s + 1) r ≤ (r + 1) * capacity s r := by
  induction r with
  | zero => simp [capacity_none]
  | succ r ih =>
    have hmono := Nat.mul_le_mul_left (r + 1) (capacity_mono s (Nat.le_succ r))
    rw [capacity_pascal, Nat.succ_mul (r + 1), Nat.add_comm]
    exact Nat.add_le_add_right (ih.trans hmono) _

end Capacity

section Loops

theorem betaLoop_eq (low count : ℕ) : ∀ j, low + j + count ≤ u64Max →
    (low + j).choose j ≤ u64Max →
      betaLoop low count (j + 1) ((low + j).choose j) =
        min ((low + (j + count)).choose (j + count)) u64Max := by
  induction count with
  | zero => exact fun j _ hj => (min_eq_left hj).symm
  | succ count ih =>
    intro j hbound hj
    have hproduct : (low + j).choose j * (low + (j + 1)) =
        (low + (j + 1)).choose (j + 1) * (j + 1) := by
      rw [Nat.mul_comm]
      exact Nat.add_one_mul_choose_eq (low + j) j
    have hfits : (low + j).choose j * (low + (j + 1)) ≤ wordMax 128 := by
      calc
        (low + j).choose j * (low + (j + 1)) ≤ u64Max * u64Max := Nat.mul_le_mul hj (by omega)
        _ ≤ wordMax 128 := by decide
    have hnext : min ((low + j).choose j * (low + (j + 1))) (wordMax 128) / (j + 1) =
        (low + (j + 1)).choose (j + 1) := by
      rw [min_eq_left hfits, hproduct, Nat.mul_div_cancel _ (Nat.succ_pos j)]
    rw [betaLoop]
    simp only [hnext]
    split
    case isTrue hbig =>
      have hmono : (low + (j + 1)).choose (j + 1) ≤ (low + (j + (count + 1))).choose (j + (count + 1)) := by
        rw [← Nat.choose_symm_add, ← Nat.choose_symm_add]
        exact Nat.choose_le_choose low (by omega)
      exact (min_eq_right (hbig.le.trans hmono)).symm
    case isFalse hsmall =>
      rw [ih (j + 1) (by omega) (not_lt.1 hsmall), show j + 1 + count = j + (count + 1) by ring]

theorem within_addUsize (a b : ℕ) :
    Within (· = Panic.overflow) (fun c => c = a + b ∧ c ≤ u64Max) (addUsize a b) := by
  unfold addUsize
  split
  case isTrue h => exact ⟨rfl, h⟩
  case isFalse => exact rfl

/-- The capacity loop returns the capped capacity. -/
theorem within_beta (s r : ℕ) :
    Within (· = Panic.overflow) (fun b => b = min (capacity s r) u64Max ∧ s + r ≤ u64Max)
      (beta s r) := by
  apply (within_addUsize s r).bind
  rintro n ⟨rfl, hn⟩
  refine ⟨?_, hn⟩
  have hloop := betaLoop_eq (s + r - min s r) (min s r) 0
  simp only [Nat.choose_zero_right, Nat.zero_add, Nat.add_zero] at hloop
  rw [hloop (by omega) (by decide), capacity]
  have hsum : s + r - min s r + min s r = s + r := by omega
  rw [hsum]
  rcases le_total s r with h | h
  · rw [min_eq_left h]
  · rw [min_eq_right h, Nat.choose_symm_add]

/-- The least number of sweeps with a sufficient capacity. -/
def IsReps (l s r : ℕ) : Prop := l ≤ capacity s r ∧ ∀ r' < r, capacity s r' < l

theorem within_repsLoop {l s : ℕ} (hs : 1 ≤ s) (hl : 1 ≤ l) (hmax : l ≤ u64Max) (fuel : ℕ) :
    ∀ r, (∀ r' < r, capacity s r' < l) → l ≤ fuel + r →
      Within (· = Panic.overflow) (IsReps l s) (repsLoop l s fuel r) := by
  induction fuel with
  | zero =>
    intro r hbefore hfuel
    have hlast := hbefore (r - 1) (by omega)
    have hgrow := lt_capacity hs (r - 1)
    omega
  | succ fuel ih =>
    intro r hbefore hfuel
    apply (within_beta s r).bind
    rintro b ⟨rfl, _⟩
    split
    case isTrue hshort =>
      apply ih (r + 1) _ (by omega)
      intro r' hr'
      rcases Nat.lt_succ_iff_lt_or_eq.1 hr' with h | rfl
      · exact hbefore r' h
      · omega
    case isFalse henough => exact ⟨by omega, hbefore⟩

theorem within_reps {l s : ℕ} (hs : 1 ≤ s) (hl : 1 ≤ l) (hmax : l ≤ u64Max) :
    Within (· = Panic.overflow) (IsReps l s) (reps l s) := by
  unfold reps
  rw [if_neg (not_lt_of_ge hs)]
  exact within_repsLoop hs hl hmax l 0 (fun r' hr' => absurd hr' (Nat.not_lt_zero _)) (le_refl l)

theorem IsReps.pos {l s r : ℕ} (h : IsReps l s r) (hl : 2 ≤ l) : 1 ≤ r := by
  by_contra hzero
  obtain rfl : r = 0 := by omega
  have hcap := h.1
  rw [capacity_none] at hcap
  omega

/-- The capacity that the cost subtracts is no larger than the product. -/
theorem IsReps.capacity_le {l s r : ℕ} (h : IsReps l s r) (hr : 1 ≤ r) :
    capacity (s + 1) (r - 1) ≤ r * l := by
  have hle := capacity_succ_le s (r - 1)
  rw [Nat.sub_add_cancel hr] at hle
  exact hle.trans (Nat.mul_le_mul_left r (h.2 (r - 1) (by omega)).le)

/-- The cost of a segment of two or more steps with a slot. -/
structure IsCost (l s r t : ℕ) : Prop where
  reps : IsReps l s r
  product : r * l ≤ u64Max
  cost : t + capacity (s + 1) (r - 1) = r * l

theorem within_tOpt {l s : ℕ} (hs : 1 ≤ s) (hl : 2 ≤ l) (hmax : l ≤ u64Max) :
    Within (· = Panic.overflow) (fun t => ∃ r, IsCost l s r t) (tOpt l s) := by
  unfold tOpt
  rw [if_neg (by omega), if_neg (by omega)]
  apply (within_reps hs (by omega) hmax).bind
  intro r hr
  unfold mulU64
  split
  case isFalse => exact rfl
  case isTrue hproduct =>
    apply (within_addUsize s 1).bind
    rintro slots ⟨rfl, _⟩
    have hpos := hr.pos hl
    rw [subU64, if_pos hpos]
    apply (within_beta (s + 1) (r - 1)).bind
    rintro b ⟨rfl, _⟩
    have hcap := hr.capacity_le hpos
    rw [min_eq_left (hcap.trans hproduct), subU64, if_pos hcap]
    exact ⟨r, hr, hproduct, Nat.sub_add_cancel hcap⟩

end Loops

end FrankenSim.Revolve
