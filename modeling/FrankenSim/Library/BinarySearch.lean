import Mathlib.Data.List.Basic
import Mathlib.Order.Lattice

/-!
# Partition points

Binary search for the end of the initial part of a list that satisfies a
predicate. On a partitioned list the result separates the two parts.
-/
namespace FrankenSim.Library

variable {α : Type*}

/-- The search between `lo` and `hi`. -/
def bisect (p : α → Bool) (xs : List α) (lo hi : ℕ) : ℕ :=
  if lo < hi then
    if (xs[lo + (hi - lo) / 2]?).any p then bisect p xs (lo + (hi - lo) / 2 + 1) hi
    else bisect p xs lo (lo + (hi - lo) / 2)
  else lo
termination_by hi - lo

def partitionPoint (p : α → Bool) (xs : List α) : ℕ := bisect p xs 0 xs.length

/-- Everything before `m` satisfies the predicate and nothing from `m` on does. -/
structure IsPartitionPoint (p : α → Bool) (xs : List α) (m : ℕ) : Prop where
  le_length : m ≤ xs.length
  before : ∀ i < m, (xs[i]?).any p
  after : ∀ i, m ≤ i → ¬ (xs[i]?).any p

variable {p q : α → Bool} {xs : List α}

theorem isPartitionPoint_bisect (h : xs.Pairwise fun a b => p b → p a) {lo hi : ℕ}
    (hle : lo ≤ hi) (hhi : hi ≤ xs.length) (hbefore : ∀ i < lo, (xs[i]?).any p)
    (hafter : ∀ i, hi ≤ i → ¬ (xs[i]?).any p) : IsPartitionPoint p xs (bisect p xs lo hi) := by
  have hdown {i j : ℕ} (hij : i ≤ j) (hj : (xs[j]?).any p) : (xs[i]?).any p := by
    obtain hlt | rfl := Nat.lt_or_eq_of_le hij
    · obtain ⟨y, hy, hpy⟩ := (Option.any_eq_true p _).mp hj
      obtain ⟨hj', rfl⟩ := List.getElem?_eq_some_iff.mp hy
      rw [List.getElem?_eq_getElem (Nat.lt_trans hlt hj')]
      exact List.pairwise_iff_getElem.mp h i j (Nat.lt_trans hlt hj') hj' hlt hpy
    · exact hj
  fun_induction bisect p xs lo hi with
  | case1 lo hi hlt hmid ih =>
    apply ih
    · omega
    · exact hhi
    · exact fun i hi => hdown (Nat.le_of_lt_succ hi) hmid
    · exact hafter
  | case2 lo hi hlt hmid ih =>
    apply ih
    · omega
    · omega
    · exact hbefore
    · exact fun i hi hp => hmid (hdown hi hp)
  | case3 lo hi hlt =>
    obtain rfl : lo = hi := by omega
    exact ⟨hhi, hbefore, hafter⟩

/-- On a partitioned list the search finds the point where it is partitioned. -/
theorem isPartitionPoint_partitionPoint (h : xs.Pairwise fun a b => p b → p a) :
    IsPartitionPoint p xs (partitionPoint p xs) := by
  apply isPartitionPoint_bisect h (Nat.zero_le _) (Nat.le_refl _)
  · exact fun i hi => absurd hi (Nat.not_lt_zero i)
  · intro i hi
    rw [List.getElem?_eq_none hi]
    exact Bool.false_ne_true

theorem IsPartitionPoint.mono {m n : ℕ} (hm : IsPartitionPoint p xs m)
    (hn : IsPartitionPoint q xs n) (hpq : ∀ a, p a → q a) : m ≤ n := by
  by_contra hlt
  apply hn.after n (Nat.le_refl n)
  have hp := hm.before n (by omega)
  cases hx : xs[n]? with
  | none => rw [hx] at hp; cases hp
  | some a =>
    rw [hx] at hp
    exact hpq a hp

theorem IsPartitionPoint.lt_length {m : ℕ} (hm : IsPartitionPoint p xs m) {a : α}
    (ha : xs.getLast? = some a) (hp : ¬ p a) : m < xs.length := by
  have hne : xs ≠ [] := by
    rintro rfl
    cases ha
  have hpos := List.length_pos_of_ne_nil hne
  by_contra hlt
  have hlast := hm.before (xs.length - 1) (by omega)
  rw [← List.getLast?_eq_getElem?, ha] at hlast
  exact hp hlast

/-- The place of an element in a sorted list. -/
def binarySearch [LinearOrder α] (xs : List α) (a : α) : Option ℕ :=
  let place := partitionPoint (fun x => decide (x < a)) xs
  if xs[place]? = some a then some place else none

theorem binarySearch_eq_some [LinearOrder α] (h : xs.Pairwise (· < ·)) {a : α} {i : ℕ} :
    binarySearch xs a = some i ↔ xs[i]? = some a := by
  have hpartitioned : xs.Pairwise fun x y => decide (y < a) → decide (x < a) :=
    h.imp fun hxy hy => by simpa using lt_trans hxy (by simpa using hy)
  have hplace := isPartitionPoint_partitionPoint hpartitioned
  have hunique : ∀ j, xs[j]? = some a → partitionPoint (fun x => decide (x < a)) xs = j := by
    intro j hj
    obtain ⟨hlt, hget⟩ := List.getElem?_eq_some_iff.1 hj
    apply Nat.le_antisymm
    · by_contra hbefore
      have hsmaller := hplace.before j (by omega)
      rw [hj] at hsmaller
      simp at hsmaller
    · by_contra hafter
      have hsmaller := List.pairwise_iff_getElem.1 h _ j (by omega) hlt (Nat.lt_of_not_le hafter)
      apply hplace.after _ (Nat.le_refl _)
      rw [List.getElem?_eq_getElem (by omega), Option.any_some]
      simpa [hget] using hsmaller
  unfold binarySearch
  dsimp only
  constructor
  · intro hsome
    split_ifs at hsome with hfound
    cases hsome
    exact hfound
  · intro hi
    rw [hunique i hi, if_pos hi]

end FrankenSim.Library
