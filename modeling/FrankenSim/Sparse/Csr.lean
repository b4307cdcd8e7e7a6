import FrankenSim.Library.Slots
import Mathlib.Data.List.Chain
import Mathlib.Data.Option.Basic

/-!
# Compressed sparse rows

The canonical matrix format: in every row the stored columns ascend strictly.
`fromParts` checks this and everything it needs on the way there. A matrix is
canonical exactly when it is the storage of some list of rows with ascending
columns in range, and a row is read back as it was stored.
-/
namespace FrankenSim.Sparse

open Library

variable {V : Type}

/-- Offsets of the rows, then column and value of every stored entry. -/
structure Csr (V : Type) where
  nrows : ℕ
  ncols : ℕ
  rowPtr : List ℕ
  colIdx : List ℕ
  vals : List V
  deriving DecidableEq, Repr

namespace Csr

def checkRow (ncols : ℕ) (rowPtr colIdx : List ℕ) (r : ℕ) : Option Unit := do
  let lo ← rowPtr[r]?
  let hi ← rowPtr[r + 1]?
  guard (lo ≤ hi)
  let cols ← span lo hi colIdx
  guard (cols.IsChain (· < ·))
  match cols.getLast? with
  | some last => guard (last < ncols)
  | none => some ()

/-- The validating constructor; `none` is a failed assertion. -/
def fromParts (nrows ncols : ℕ) (rowPtr colIdx : List ℕ) (vals : List V) : Option (Csr V) := do
  guard (rowPtr.length = nrows + 1)
  guard (rowPtr[0]? = some 0)
  guard (rowPtr.getLast? = some colIdx.length)
  guard (colIdx.length = vals.length)
  (List.range nrows).forM (checkRow ncols rowPtr colIdx)
  some ⟨nrows, ncols, rowPtr, colIdx, vals⟩

def row (A : Csr V) (r : ℕ) : Option (List ℕ × List V) := do
  let lo ← A.rowPtr[r]?
  let hi ← A.rowPtr[r + 1]?
  let cols ← span lo hi A.colIdx
  let vals ← span lo hi A.vals
  some (cols, vals)

/-- A row as the format wants it: ascending columns, all of them in range. -/
def RowOk (ncols : ℕ) (row : List (ℕ × V)) : Prop :=
  (row.map Prod.fst).IsChain (· < ·) ∧ ∀ p ∈ row, p.1 < ncols

def ofRows (ncols : ℕ) (rows : List (List (ℕ × V))) : Csr V :=
  ⟨rows.length, ncols, offsets rows, rows.flatten.map Prod.fst, rows.flatten.map Prod.snd⟩

variable {ncols : ℕ} {rows : List (List (ℕ × V))}

theorem checkRow_ofRows {r : ℕ} (h : r < rows.length) (hok : RowOk ncols rows[r]) :
    checkRow ncols (offsets rows) (rows.flatten.map Prod.fst) r = some () := by
  have hle : (rows.take r).flatten.length ≤ (rows.take (r + 1)).flatten.length := by
    rw [length_take_succ_flatten h]
    omega
  simp only [checkRow, getElem?_offsets (Nat.le_of_lt h), getElem?_offsets h, Option.bind_eq_bind,
    Option.bind_some, hle, guard_true, Option.pure_def, span_map, span_offsets h,
    Option.map_some, hok.1]
  split
  case h_1 last hlast =>
    have hmem := List.mem_of_getLast? hlast
    obtain ⟨p, hp, rfl⟩ := List.mem_map.mp hmem
    simp [hok.2 p hp]
  case h_2 => rfl

/-- Rows with ascending columns in range pass the validation. -/
theorem fromParts_ofRows {A : Csr V} (hA : A = ofRows ncols rows)
    (h : ∀ row ∈ rows, RowOk ncols row) :
    fromParts A.nrows A.ncols A.rowPtr A.colIdx A.vals = some A := by
  subst hA
  have hrows : (List.range rows.length).forM
      (checkRow ncols (offsets rows) (rows.flatten.map Prod.fst)) = some () := by
    apply forM_some
    intro r hr
    have hr := List.mem_range.mp hr
    exact checkRow_ofRows hr (h _ (List.getElem_mem hr))
  simp only [fromParts, ofRows, length_offsets, getLast?_offsets, List.length_map, hrows]
  rfl

theorem row_ofRows {r : ℕ} (h : r < rows.length) :
    (ofRows ncols rows).row r = some (rows[r].map Prod.fst, rows[r].map Prod.snd) := by
  simp only [row, ofRows, getElem?_offsets (Nat.le_of_lt h), getElem?_offsets h,
    Option.bind_eq_bind, Option.bind_some, span_map, span_offsets h, Option.map_some]

def Canonical (A : Csr V) : Prop := fromParts A.nrows A.ncols A.rowPtr A.colIdx A.vals = some A

instance [DecidableEq V] (A : Csr V) : Decidable A.Canonical := inferInstanceAs (Decidable (_ = _))

section Canonical

variable {A : Csr V}

theorem canonical_ofRows (h : ∀ row ∈ rows, RowOk ncols row) : (ofRows ncols rows).Canonical :=
  fromParts_ofRows rfl h

theorem guard_eq_some {p : Prop} [Decidable p] {u : Unit} : (guard p : Option Unit) = some u ↔ p := by
  simp [guard]

theorem checkRow_eq_some {rowPtr colIdx : List ℕ} {r : ℕ}
    (h : checkRow ncols rowPtr colIdx r = some ()) :
    ∃ lo hi, rowPtr[r]? = some lo ∧ rowPtr[r + 1]? = some hi ∧ lo ≤ hi ∧ hi ≤ colIdx.length ∧
      ((colIdx.drop lo).take (hi - lo)).IsChain (· < ·) ∧
      ∀ c ∈ (colIdx.drop lo).take (hi - lo), c < ncols := by
  simp only [checkRow, Option.bind_eq_bind, Option.bind_eq_some_iff, guard_eq_some] at h
  obtain ⟨lo, hlo, hi, hhi, -, hle, cols, hcols, -, hchain, hlast⟩ := h
  unfold span at hcols
  simp only [Option.ite_none_right_eq_some, Option.some.injEq] at hcols
  obtain ⟨⟨-, hin⟩, rfl⟩ := hcols
  refine ⟨lo, hi, hlo, hhi, hle, hin, hchain, ?_⟩
  split at hlast
  case h_1 last hlast' =>
    obtain ⟨front, hfront⟩ := List.getLast?_eq_some_iff.mp hlast'
    rw [hfront] at hchain ⊢
    have hpairs := List.pairwise_append.mp (List.isChain_iff_pairwise.mp hchain)
    intro c hc
    obtain hc | hc := List.mem_append.mp hc
    · exact (hpairs.2.2 c hc last (List.mem_singleton_self last)).trans (guard_eq_some.mp hlast)
    · rw [List.mem_singleton.mp hc]
      exact guard_eq_some.mp hlast
  case h_2 hnil =>
    rw [List.getLast?_eq_none_iff.mp hnil]
    exact fun c hc => absurd hc List.not_mem_nil

def rowEntries (A : Csr V) (r : ℕ) : List (ℕ × V) :=
  ((A.colIdx.zip A.vals).drop (A.rowPtr.getD r 0)).take
    (A.rowPtr.getD (r + 1) 0 - A.rowPtr.getD r 0)

theorem take_flatten_rowEntries {n : ℕ} (hfirst : A.rowPtr.getD 0 0 = 0)
    (hmono : ∀ r < n, A.rowPtr.getD r 0 ≤ A.rowPtr.getD (r + 1) 0) :
    ((List.range n).map A.rowEntries).flatten = (A.colIdx.zip A.vals).take (A.rowPtr.getD n 0) := by
  induction n with
  | zero => rw [hfirst]; rfl
  | succ n ih =>
    rw [List.range_succ, List.map_append, List.flatten_append,
      ih fun r hr => hmono r (Nat.lt_succ_of_lt hr), List.map_singleton, List.flatten_singleton,
      rowEntries, ← List.take_add, Nat.add_sub_cancel' (hmono n (Nat.lt_succ_self n))]

theorem Canonical.exists_rows (h : A.Canonical) :
    ∃ rows, A = ofRows A.ncols rows ∧ ∀ row ∈ rows, RowOk A.ncols row := by
  simp only [Canonical, fromParts, Option.bind_eq_bind, Option.bind_eq_some_iff, guard_eq_some] at h
  obtain ⟨-, hlength, -, hfirst, -, hlast, -, hvals, ⟨⟩, hrows, -⟩ := h
  have hrow : ∀ r < A.nrows, A.rowPtr.getD r 0 ≤ A.rowPtr.getD (r + 1) 0 ∧
      A.rowPtr.getD (r + 1) 0 ≤ A.colIdx.length ∧
      (A.rowEntries r).map Prod.fst = (A.colIdx.drop (A.rowPtr.getD r 0)).take
        (A.rowPtr.getD (r + 1) 0 - A.rowPtr.getD r 0) ∧ RowOk A.ncols (A.rowEntries r) := by
    intro r hr
    obtain ⟨lo, hi, hlo, hhi, hle, hin, hchain, hlt⟩ :=
      checkRow_eq_some (of_forM_some hrows r (List.mem_range.mpr hr))
    have hfst : (A.rowEntries r).map Prod.fst = (A.colIdx.drop lo).take (hi - lo) := by
      simp only [rowEntries, List.getD_eq_getElem?_getD, hlo, hhi, Option.getD_some, List.map_take,
        List.map_drop, List.map_fst_zip (Nat.le_of_eq hvals)]
    simp only [List.getD_eq_getElem?_getD, hlo, hhi, Option.getD_some]
    refine ⟨hle, hin, hfst, ?_, ?_⟩
    · rw [hfst]
      exact hchain
    · intro p hp
      apply hlt
      rw [← hfst]
      exact List.mem_map_of_mem hp
  have hzero : A.rowPtr.getD 0 0 = 0 := by
    rw [List.getD_eq_getElem?_getD, hfirst]
    rfl
  have hflatten : ∀ n ≤ A.nrows, ((List.range n).map A.rowEntries).flatten =
      (A.colIdx.zip A.vals).take (A.rowPtr.getD n 0) :=
    fun n hn => take_flatten_rowEntries hzero fun r hr => (hrow r (by omega)).1
  have hlength' : (A.colIdx.zip A.vals).length = A.colIdx.length := by
    rw [List.length_zip, ← hvals, Nat.min_self]
  have hend : A.rowPtr.getD A.nrows 0 = A.colIdx.length := by
    rw [List.getLast?_eq_getElem?, hlength, Nat.add_sub_cancel] at hlast
    rw [List.getD_eq_getElem?_getD, hlast]
    rfl
  refine ⟨(List.range A.nrows).map A.rowEntries, ?_, ?_⟩
  · have hall : ((List.range A.nrows).map A.rowEntries).flatten = A.colIdx.zip A.vals := by
      rw [hflatten A.nrows (Nat.le_refl _), hend, ← hlength', List.take_length]
    have hoffsets : offsets ((List.range A.nrows).map A.rowEntries) = A.rowPtr := by
      apply List.ext_getElem?
      intro r
      by_cases hr : r ≤ A.nrows
      · rw [getElem?_offsets (by simpa using hr), ← List.map_take, List.take_range,
          Nat.min_eq_left hr, hflatten r hr, List.length_take, hlength', Nat.min_eq_left,
          List.getD_eq_getElem?_getD, List.getElem?_eq_getElem (by omega), Option.getD_some]
        cases r with
        | zero => rw [hzero]; exact Nat.zero_le _
        | succ r => exact (hrow r hr).2.1
      · rw [List.getElem?_eq_none (by simp; omega), List.getElem?_eq_none (by omega)]
    rw [ofRows, hoffsets, hall, List.map_fst_zip (Nat.le_of_eq hvals),
      List.map_snd_zip (Nat.le_of_eq hvals.symm), List.length_map, List.length_range]
  · intro row hmem
    obtain ⟨r, hr, rfl⟩ := List.mem_map.mp hmem
    exact (hrow r (List.mem_range.mp hr)).2.2.2

end Canonical

end Csr

def rowAt (rows : List (List (ℕ × V))) (r : ℕ) : List (ℕ × V) := rows.getD r []

section Rows

variable {ncols : ℕ} {rows : List (List (ℕ × V))}

theorem rowAt_of_lt {r : ℕ} (h : r < rows.length) : rowAt rows r = rows[r] := by
  rw [rowAt, List.getD_eq_getElem?_getD, List.getElem?_eq_getElem h, Option.getD_some]

theorem rowAt_ok (hrows : ∀ row ∈ rows, Csr.RowOk ncols row) {r : ℕ} (h : r < rows.length) :
    Csr.RowOk ncols (rowAt rows r) := by
  rw [rowAt_of_lt h]
  exact hrows _ (List.getElem_mem h)

theorem zip_map_fst_snd (row : List (ℕ × V)) : (row.map Prod.fst).zip (row.map Prod.snd) = row := by
  rw [List.zip_map']
  exact List.map_id _

theorem row_rowAt {r : ℕ} (h : r < rows.length) : (Csr.ofRows ncols rows).row r =
    some ((rowAt rows r).map Prod.fst, (rowAt rows r).map Prod.snd) := by
  rw [Csr.row_ofRows h, rowAt_of_lt h]

end Rows

end FrankenSim.Sparse
