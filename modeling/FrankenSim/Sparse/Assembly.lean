import FrankenSim.Sparse.Coo
import Mathlib.Tactic.IntervalCases

/-!
# Assembly as a function of the contributions

Assembly stores one value for every coordinate that received contributions, their sum
in the order of staging. Staging orders that agree on every coordinate's own sequence
therefore give the same matrix.
-/
namespace FrankenSim.Sparse

open Library

variable {V : Type}

def Csr.HasEntry (A : Csr V) (r c : ℕ) (v : V) : Prop :=
  ∃ cols vals, A.row r = some (cols, vals) ∧ (c, v) ∈ cols.zip vals

theorem Csr.stores_ofRows {ncols : ℕ} {rows : List (List (ℕ × V))} {r c : ℕ} {v : V} :
    (Csr.ofRows ncols rows).HasEntry r c v ↔ (c, v) ∈ rowAt rows r := by
  unfold Csr.HasEntry
  by_cases hr : r < rows.length
  · rw [row_rowAt hr]
    constructor
    · rintro ⟨cols, vals, hrow, hmem⟩
      cases hrow
      rwa [zip_map_fst_snd] at hmem
    · intro hmem
      exact ⟨_, _, rfl, by rwa [zip_map_fst_snd]⟩
  · have hnone : (Csr.ofRows ncols rows).row r = none := by
      have hend : (Csr.ofRows ncols rows).rowPtr[r + 1]? = none := by
        apply List.getElem?_eq_none
        simp only [Csr.ofRows, length_offsets]
        omega
      unfold Csr.row
      rw [hend]
      cases (Csr.ofRows ncols rows).rowPtr[r]? <;> rfl
    have hempty : rowAt rows r = [] := by
      rw [rowAt, List.getD_eq_getElem?_getD, List.getElem?_eq_none (by omega)]
      rfl
    simp [hnone, hempty]

namespace Coo

def triplets (A : Coo V) : List (Entry V) := (List.finRange A.staged).map A.entry

/-- The contributions to one coordinate in the order of staging. -/
def contributions (A : Coo V) (r c : ℕ) : List V :=
  (A.triplets.filter fun e => e.1 = toLex (r, c)).map Prod.snd

theorem contributions_ne_nil {A : Coo V} {r c : ℕ} :
    A.contributions r c ≠ [] ↔ ∃ i, A.row i = r ∧ A.col i = c := by
  simp [contributions, triplets, List.filter_eq_nil_iff, entry, key]

variable [Add V]

theorem exists_sumFirst {vs : List V} : (∃ v, sumFirst vs = some v) ↔ vs ≠ [] := by
  cases vs <;> simp [sumFirst]

theorem mem_total {A : Coo V} {r c : ℕ} {v : V} :
    (toLex (r, c), v) ∈ A.total ↔ sumFirst (A.contributions r c) = some v := by
  have hsorted : ((sortByKey A.key (List.finRange A.staged)).map A.entry).Pairwise
      fun p q => p.1 ≤ q.1 := by
    rw [List.pairwise_map]
    exact sorted_sortByKey _ _
  rw [total, sums, mem_accumulate hsorted, contributions, triplets, List.filter_map,
    List.filter_map]
  have hfilter := @filter_sortByKey _ _ _ A.key (List.finRange A.staged) (toLex (r, c))
  change sumFirst ((((sortByKey A.key (List.finRange A.staged)).filter
    (A.key · = toLex (r, c))).map A.entry).map Prod.snd) = some v ↔ _
  rw [hfilter]
  rfl

theorem mem_rowOf_total {A : Coo V} {r c : ℕ} {v : V} :
    (c, v) ∈ rowOf A.total r ↔ sumFirst (A.contributions r c) = some v := by
  rw [← mem_total, rowOf, List.mem_map]
  constructor
  · rintro ⟨e, he, heq⟩
    obtain ⟨hmem, hrow⟩ := List.mem_filter.1 he
    have hkey : e = (toLex (r, c), v) := by
      cases heq
      rw [decide_eq_true_eq] at hrow
      rw [← hrow]
      rfl
    rwa [← hkey]
  · intro hmem
    exact ⟨_, List.mem_filter.2 ⟨hmem, by simp [Entry.row]⟩, rfl⟩

/-- Staging orders with the same sequence on every coordinate have the same sums. -/
theorem total_congr {A B : Coo V} (h : ∀ r c, A.contributions r c = B.contributions r c) :
    A.total = B.total := by
  have hentries : (sortByKey A.key (List.finRange A.staged)).map A.entry =
      (sortByKey B.key (List.finRange B.staged)).map B.entry := by
    apply @sorted_ext _ _ _ Prod.fst
    · rw [List.pairwise_map]
      exact sorted_sortByKey _ _
    · rw [List.pairwise_map]
      exact sorted_sortByKey _ _
    · have hkept : ∀ (C : Coo V) (k : ℕ ×ₗ ℕ),
          ((sortByKey C.key (List.finRange C.staged)).map C.entry).filter (fun e => e.1 = k) =
            (C.contributions (ofLex k).1 (ofLex k).2).map fun v => (k, v) := by
        intro C k
        have hfilter := @filter_sortByKey _ _ _ C.key (List.finRange C.staged) k
        rw [List.filter_map, contributions, triplets, List.filter_map]
        change ((sortByKey C.key (List.finRange C.staged)).filter (C.key · = k)).map C.entry =
          ((((List.finRange C.staged).filter (C.key · = k)).map C.entry).map Prod.snd).map _
        rw [hfilter, List.map_map, List.map_map]
        apply List.map_congr_left
        intro i hi
        have hkey : C.key i = k := by simpa using (List.mem_filter.1 hi).2
        simp [entry, hkey]
      intro k
      rw [hkept, hkept, h]
  rw [total, total, sums, sums, hentries]

/-- Assembly returns a canonical matrix with the sum of every coordinate's contributions, and
only their sequences matter. -/
theorem assemble_canonical (A : Coo V) : ∃ C, A.assemble = some C ∧ C.Canonical ∧
    C.nrows = A.nrows ∧ C.ncols = A.ncols ∧
    (∀ r c, (∃ v, C.HasEntry r c v) ↔ ∃ i, A.row i = r ∧ A.col i = c) ∧
    (∀ r c v, C.HasEntry r c v ↔ sumFirst (A.contributions r c) = some v) ∧
    ∀ B : Coo V, B.nrows = A.nrows → B.ncols = A.ncols →
      (∀ r c, B.contributions r c = A.contributions r c) → B.assemble = some C := by
  have hrows : ∀ row ∈ (List.range A.nrows).map (rowOf A.total), Csr.RowOk A.ncols row := by
    intro row hrow
    obtain ⟨r, -, rfl⟩ := List.mem_map.1 hrow
    exact rowOk_rowOf A.sorted_total r
  have hstores : ∀ r c v, A.assembled.HasEntry r c v ↔ sumFirst (A.contributions r c) = some v := by
    intro r c v
    rw [assembled, Csr.stores_ofRows, ← mem_rowOf_total]
    by_cases hr : r < A.nrows
    · rw [rowAt_of_lt (by simpa using hr), List.getElem_map, List.getElem_range]
    · have hempty : rowOf A.total r = [] := by
        rw [rowOf, List.map_eq_nil_iff, List.filter_eq_nil_iff]
        intro e he
        have := A.sorted_total.row_lt e he
        simp only [decide_eq_true_eq]
        omega
      rw [hempty, rowAt, List.getD_eq_getElem?_getD, List.getElem?_eq_none (by simpa using hr)]
      rfl
  refine ⟨A.assembled, A.assemble_eq, Csr.canonical_ofRows hrows, ?_, rfl, ?_, hstores, ?_⟩
  · simp [assembled, Csr.ofRows]
  · intro r c
    simp only [hstores]
    rw [exists_sumFirst, contributions_ne_nil]
  · intro B hnrows hncols hsame
    rw [B.assemble_eq, assembled, assembled, total_congr hsame, hnrows, hncols]

/-- Three contributions to two coordinates. -/
def stagedThree : Coo ℕ := ⟨1, 2, [0, 0, 0], [0, 1, 0], [1, 2, 3], rfl, rfl, by decide, by decide⟩

/-- The same contributions with the coordinates in another order. -/
def restagedThree : Coo ℕ := ⟨1, 2, [0, 0, 0], [1, 0, 0], [2, 1, 3], rfl, rfl, by decide, by decide⟩

theorem assemble_three : ∃ C, stagedThree.assemble = some C ∧ restagedThree.assemble = some C := by
  obtain ⟨C, hC, -, -, -, -, -, hreorder⟩ := assemble_canonical stagedThree
  refine ⟨C, hC, hreorder restagedThree rfl rfl ?_⟩
  have hnil : ∀ B : Coo ℕ, ∀ r c, ¬ (r < B.nrows ∧ c < B.ncols) → B.contributions r c = [] := by
    intro B r c hout
    by_contra hne
    obtain ⟨i, rfl, rfl⟩ := contributions_ne_nil.1 hne
    exact hout ⟨B.row_lt_nrows i, B.col_lt_ncols i⟩
  intro r c
  by_cases hin : r < 1 ∧ c < 2
  · obtain ⟨hr, hc⟩ := hin
    interval_cases r
    interval_cases c <;> decide
  · rw [hnil _ r c hin, hnil _ r c hin]

end Coo

end FrankenSim.Sparse
