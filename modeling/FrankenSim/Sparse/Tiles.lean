import FrankenSim.Library.Scoped
import FrankenSim.Sparse.Coo

/-!
# Tiles of rows

The workers of a kernel are bounded in number, and parallel assembly cuts the rows
into tiles of about the same number of triplets.
The balance decides only where the cuts are: the tile of a row never decreases
along the rows and stays below the number of tiles. A tile may be empty or hold
rows without triplets, and the rows of a tile are the ones of its range.
-/
namespace FrankenSim.Sparse

open Library

/-- Workers are capped by the useful pieces of work and by the host. -/
def boundedWorkerCount (host : Option ℕ+) (requested useful : ℕ) : ℕ :=
  min (min (max requested 1) (max useful 1)) (availableParallelism host)

theorem boundedWorkerCount_pos (host : Option ℕ+) (requested useful : ℕ) :
    0 < boundedWorkerCount host requested useful := by
  have := availableParallelism_pos host
  unfold boundedWorkerCount
  omega

/-- The inner loop: pass every tile whose share the rows so far exceed. -/
def advance (t total filled tile : ℕ) : ℕ :=
  if tile + 1 < t ∧ (tile + 1) * total < filled * t then advance t total filled (tile + 1)
  else tile
termination_by t - tile

/-- The tile of each row, given the number of triplets up to the end of each row. -/
def tilesFrom (t total tile : ℕ) : List ℕ → List ℕ
  | [] => []
  | filled :: later =>
    advance t total filled tile :: tilesFrom t total (advance t total filled tile) later

section Balance

variable {t total tile : ℕ}

theorem le_advance (filled : ℕ) : tile ≤ advance t total filled tile := by
  fun_induction advance t total filled tile with
  | case1 tile _ ih => exact (Nat.le_succ tile).trans ih
  | case2 => exact Nat.le_refl _

theorem advance_lt (filled : ℕ) (h : tile < t) : advance t total filled tile < t := by
  fun_induction advance t total filled tile with
  | case1 tile hnext ih => exact ih hnext.1
  | case2 => exact h

@[simp] theorem length_tilesFrom (perRow : List ℕ) :
    (tilesFrom t total tile perRow).length = perRow.length := by
  induction perRow generalizing tile with
  | nil => rfl
  | cons filled later ih => rw [tilesFrom, List.length_cons, ih, List.length_cons]

theorem tilesFrom_sorted (perRow : List ℕ) :
    (tile :: tilesFrom t total tile perRow).Pairwise (· ≤ ·) := by
  induction perRow generalizing tile with
  | nil => exact List.pairwise_singleton _ _
  | cons filled later ih =>
    have hlater := @ih (advance t total filled tile)
    rw [tilesFrom, List.pairwise_cons]
    refine ⟨?_, hlater⟩
    intro τ hτ
    obtain rfl | hτ := List.mem_cons.mp hτ
    · exact le_advance filled
    · exact (le_advance filled).trans ((List.pairwise_cons.mp hlater).1 τ hτ)

theorem tilesFrom_lt (h : tile < t) (perRow : List ℕ) : ∀ τ ∈ tilesFrom t total tile perRow, τ < t := by
  induction perRow generalizing tile with
  | nil => simp [tilesFrom]
  | cons filled later ih =>
    intro τ hτ
    rw [tilesFrom] at hτ
    obtain rfl | hτ := List.mem_cons.mp hτ
    · exact advance_lt filled h
    · exact ih (advance_lt filled h) τ hτ

end Balance

def rposition (τ : ℕ) : List ℕ → Option ℕ
  | [] => none
  | x :: xs =>
    match rposition τ xs with
    | some p => some (p + 1)
    | none => if x = τ then some 0 else none

def tileRange (tileOfRow : List ℕ) (tile : ℕ) : ℕ × ℕ :=
  match tileOfRow.idxOf? tile with
  | some lo => (lo, ((rposition tile tileOfRow).map (· + 1)).getD lo)
  | none => (0, 0)

section Ranges

variable {tileOfRow : List ℕ} {τ : ℕ}

theorem rposition_eq_none {xs : List ℕ} : rposition τ xs = none ↔ τ ∉ xs := by
  induction xs with
  | nil => simp [rposition]
  | cons x xs ih =>
    unfold rposition
    rw [List.mem_cons, not_or, ← ih]
    cases rposition τ xs with
    | none => simp [eq_comm]
    | some p => simp

theorem rposition_eq_some {xs : List ℕ} {p : ℕ} (h : rposition τ xs = some p) :
    xs[p]? = some τ ∧ ∀ i, xs[i]? = some τ → i ≤ p := by
  induction xs generalizing p with
  | nil => cases h
  | cons x xs ih =>
    unfold rposition at h
    cases hlater : rposition τ xs with
    | some q =>
      rw [hlater] at h
      obtain rfl : q + 1 = p := Option.some.inj h
      obtain ⟨hq, hlast⟩ := ih hlater
      refine ⟨hq, ?_⟩
      intro i hi
      cases i with
      | zero => exact Nat.zero_le _
      | succ i => exact Nat.succ_le_succ (hlast i hi)
    | none =>
      rw [hlater] at h
      simp only [Option.ite_none_right_eq_some, Option.some.injEq] at h
      obtain ⟨rfl, rfl⟩ := h
      refine ⟨rfl, ?_⟩
      intro i hi
      have hnone := rposition_eq_none.mp hlater
      cases i with
      | zero => exact Nat.le_refl 0
      | succ i => exact absurd (List.mem_of_getElem? (l := xs) (i := i) hi) hnone

theorem mem_tileRange (hsorted : tileOfRow.Pairwise (· ≤ ·)) {r : ℕ} :
    (tileRange tileOfRow τ).1 ≤ r ∧ r < (tileRange tileOfRow τ).2 ↔ tileOfRow[r]? = some τ := by
  have hmono {i j x y : ℕ} (hi : tileOfRow[i]? = some x) (hj : tileOfRow[j]? = some y)
      (hij : i ≤ j) : x ≤ y := by
    obtain ⟨hi', rfl⟩ := List.getElem?_eq_some_iff.mp hi
    obtain ⟨hj', rfl⟩ := List.getElem?_eq_some_iff.mp hj
    obtain hlt | rfl := Nat.lt_or_eq_of_le hij
    · exact List.pairwise_iff_getElem.mp hsorted i j hi' hj' hlt
    · exact Nat.le_refl _
  unfold tileRange
  cases hfirst : tileOfRow.idxOf? τ with
  | none =>
    rw [List.idxOf?_eq_none_iff] at hfirst
    constructor
    · rintro ⟨-, h⟩
      exact absurd h (Nat.not_lt_zero r)
    · intro h
      exact absurd (List.mem_of_getElem? h) hfirst
  | some lo =>
    obtain ⟨hlo, hτ, hbefore⟩ := List.idxOf?_eq_some_iff.mp hfirst
    have hmem : τ ∈ tileOfRow := hτ ▸ List.getElem_mem hlo
    cases hlast : rposition τ tileOfRow with
    | none => exact absurd hmem (rposition_eq_none.mp hlast)
    | some p =>
      obtain ⟨hp, hafter⟩ := rposition_eq_some hlast
      have hp' := (List.getElem?_eq_some_iff.mp hp).1
      simp only [Option.map_some, Option.getD_some]
      constructor
      · rintro ⟨hle, hlt⟩
        have hr : r < tileOfRow.length := by omega
        rw [List.getElem?_eq_getElem hr, Option.some.injEq]
        apply le_antisymm
        · exact hmono (List.getElem?_eq_getElem hr) hp (by omega)
        · rw [← hτ]
          exact hmono (List.getElem?_eq_getElem hlo) (List.getElem?_eq_getElem hr) hle
      · intro h
        obtain ⟨hr, hval⟩ := List.getElem?_eq_some_iff.mp h
        constructor
        · by_contra hlt
          exact hbefore r (by omega) hval
        · have := hafter r h
          omega

end Ranges

/-- A tile for every row, ascending and below `t`. -/
structure Tiling (nrows t : ℕ) where
  tileOfRow : List ℕ
  length_eq : tileOfRow.length = nrows
  sorted : tileOfRow.Pairwise (· ≤ ·)
  lt : ∀ τ ∈ tileOfRow, τ < t

namespace Tiling

def balanced {t : ℕ} (ht : 0 < t) (total : ℕ) {nrows : ℕ} {perRow : List ℕ}
    (h : perRow.length = nrows) : Tiling nrows t where
  tileOfRow := tilesFrom t total 0 perRow
  length_eq := (length_tilesFrom perRow).trans h
  sorted := (List.pairwise_cons.mp (tilesFrom_sorted perRow)).2
  lt := tilesFrom_lt ht perRow

variable {nrows t : ℕ} (T : Tiling nrows t) {r : ℕ}

def tile (r : ℕ) : ℕ := T.tileOfRow.getD r t

theorem getElem?_tileOfRow (h : r < nrows) : T.tileOfRow[r]? = some (T.tile r) := by
  have hr : r < T.tileOfRow.length := by rw [T.length_eq]; exact h
  rw [tile, List.getD_eq_getElem?_getD, List.getElem?_eq_getElem hr, Option.getD_some]

theorem tile_lt (h : r < nrows) : T.tile r < t :=
  T.lt _ (List.mem_of_getElem? (T.getElem?_tileOfRow h))

theorem tile_of_le (h : nrows ≤ r) : T.tile r = t := by
  rw [tile, List.getD_eq_getElem?_getD, List.getElem?_eq_none (by rw [T.length_eq]; exact h),
    Option.getD_none]

theorem monotone_tile : Monotone T.tile := by
  intro r s hrs
  by_cases hs : s < nrows
  · obtain ⟨hr', hr⟩ := List.getElem?_eq_some_iff.mp (T.getElem?_tileOfRow (hrs.trans_lt hs))
    obtain ⟨hs', hs⟩ := List.getElem?_eq_some_iff.mp (T.getElem?_tileOfRow hs)
    obtain hlt | rfl := Nat.lt_or_eq_of_le hrs
    · rw [← hr, ← hs]
      exact List.pairwise_iff_getElem.mp T.sorted r s hr' hs' hlt
    · exact le_refl _
  · rw [T.tile_of_le (Nat.le_of_not_lt hs)]
    by_cases hr : r < nrows
    · exact (T.tile_lt hr).le
    · exact (T.tile_of_le (Nat.le_of_not_lt hr)).le

def lo (τ : ℕ) : ℕ := (tileRange T.tileOfRow τ).1

def hi (τ : ℕ) : ℕ := (tileRange T.tileOfRow τ).2

theorem mem_range {τ : ℕ} : T.lo τ ≤ r ∧ r < T.hi τ ↔ r < nrows ∧ T.tile r = τ := by
  rw [lo, hi, mem_tileRange T.sorted]
  constructor
  · intro h
    have hr : r < nrows := by
      rw [← T.length_eq]
      exact (List.getElem?_eq_some_iff.mp h).1
    rw [T.getElem?_tileOfRow hr, Option.some.injEq] at h
    exact ⟨hr, h⟩
  · rintro ⟨hr, rfl⟩
    exact T.getElem?_tileOfRow hr

end Tiling

end FrankenSim.Sparse
