import FrankenSim.Library.Accumulate
import FrankenSim.Library.StableSort
import FrankenSim.Sparse.Csr
import Mathlib.Data.Prod.Lex
import Mathlib.Data.List.FinRange

/-!
# Triplet staging and serial assembly

Triplets are staged in any order, several for one coordinate if need be.
Assembly sorts them stably by coordinate, adds up the values of each coordinate
in the order in which they were staged, and stores the sums row by row. Addition
is any operation: nothing here regroups or reorders it.
-/
namespace FrankenSim.Sparse

open Library

/-- Staged triplets, every one of them within the dimensions. -/
structure Coo (V : Type) where
  nrows : ℕ
  ncols : ℕ
  rows : List ℕ
  cols : List ℕ
  vals : List V
  rows_length : rows.length = vals.length
  cols_length : cols.length = vals.length
  row_lt : ∀ r ∈ rows, r < nrows
  col_lt : ∀ c ∈ cols, c < ncols

variable {V : Type}

abbrev Entry (V : Type) := (ℕ ×ₗ ℕ) × V

def Entry.row (e : Entry V) : ℕ := (ofLex e.1).1
def Entry.col (e : Entry V) : ℕ := (ofLex e.1).2

namespace Coo

def new (nrows ncols : ℕ) : Coo V where
  nrows := nrows
  ncols := ncols
  rows := []
  cols := []
  vals := []
  rows_length := rfl
  cols_length := rfl
  row_lt := by simp
  col_lt := by simp

/-- Stage one contribution; an index outside the dimensions is a panic. -/
def push (A : Coo V) (row col : ℕ) (val : V) : Option (Coo V) :=
  if h : row < A.nrows ∧ col < A.ncols then
    some
      { nrows := A.nrows
        ncols := A.ncols
        rows := A.rows ++ [row]
        cols := A.cols ++ [col]
        vals := A.vals ++ [val]
        rows_length := by simp [A.rows_length]
        cols_length := by simp [A.cols_length]
        row_lt := by
          intro r hr
          obtain hr | hr := List.mem_append.mp hr
          · exact A.row_lt r hr
          · rw [List.mem_singleton.mp hr]
            exact h.1
        col_lt := by
          intro c hc
          obtain hc | hc := List.mem_append.mp hc
          · exact A.col_lt c hc
          · rw [List.mem_singleton.mp hc]
            exact h.2 }
  else none

def staged (A : Coo V) : ℕ := A.vals.length

variable (A : Coo V)

def row (i : Fin A.staged) : ℕ := A.rows.get (i.cast A.rows_length.symm)
def col (i : Fin A.staged) : ℕ := A.cols.get (i.cast A.cols_length.symm)
def val (i : Fin A.staged) : V := A.vals.get i

theorem row_lt_nrows (i : Fin A.staged) : A.row i < A.nrows := A.row_lt _ (List.get_mem _ _)
theorem col_lt_ncols (i : Fin A.staged) : A.col i < A.ncols := A.col_lt _ (List.get_mem _ _)

def key (i : Fin A.staged) : ℕ ×ₗ ℕ := toLex (A.row i, A.col i)

def entry (i : Fin A.staged) : Entry V := (A.key i, A.val i)

section Assemble

variable [Add V]

/-- The nested loops over sorted indices: the sums of the coordinates, in order. -/
def sums (order : List (Fin A.staged)) : List (Entry V) := accumulate (order.map A.entry)

def assemble : Option (Csr V) := do
  let order := sortByKey A.key (List.finRange A.staged)
  let sums := A.sums order
  let rowPtr ← sums.foldlM (fun rowPtr e => modifyAt (e.row + 1) (· + 1) rowPtr)
    (List.replicate (A.nrows + 1) 0)
  some ⟨A.nrows, A.ncols, runningSums 0 rowPtr, sums.map Entry.col, sums.map Prod.snd⟩

end Assemble

def rowOf (sums : List (Entry V)) (r : ℕ) : List (ℕ × V) :=
  (sums.filter (·.row = r)).map fun e => (e.col, e.2)

/-- What a list of sums has to satisfy to be stored row by row. -/
structure Sorted (nrows ncols : ℕ) (sums : List (Entry V)) : Prop where
  ascending : sums.Pairwise fun e f => e.1 < f.1
  row_lt : ∀ e ∈ sums, e.row < nrows
  col_lt : ∀ e ∈ sums, e.col < ncols

variable {A} {nrows ncols : ℕ} {sums : List (Entry V)}

theorem rowOk_rowOf (h : Sorted nrows ncols sums) (r : ℕ) : Csr.RowOk ncols (rowOf sums r) := by
  constructor
  · apply List.Pairwise.isChain
    rw [rowOf, List.map_map, List.pairwise_map]
    apply (h.ascending.filter _).imp_of_mem
    intro e f he hf hlt
    simp only [List.mem_filter, decide_eq_true_eq] at he hf
    rw [Prod.Lex.lt_iff] at hlt
    obtain hlt | hlt := hlt
    · exact absurd hlt (by rw [← Entry.row, ← Entry.row, he.2, hf.2]; exact lt_irrefl r)
    · exact hlt.2
  · intro p hp
    obtain ⟨e, he, rfl⟩ := List.mem_map.mp hp
    exact h.col_lt e (List.mem_of_mem_filter he)

theorem flatten_rowOf (h : Sorted nrows ncols sums) :
    ((List.range nrows).map (rowOf sums)).flatten = sums.map fun e => (e.col, e.2) := by
  rw [← List.flatMap_def]
  change ((List.range nrows).flatMap fun r =>
    (sums.filter (·.row = r)).map fun e => (e.col, e.2)) = _
  rw [← List.map_flatMap]
  congr 1
  apply @parts_of_sorted _ _ _ Prod.fst _ Prod.Lex.monotone_fst_ofLex _ _ _ h.row_lt
  exact h.ascending.imp le_of_lt

/-- Sorted sums under their row counts are the storage of their rows. -/
theorem ofRows_rowOf (h : Sorted nrows ncols sums) :
    (⟨nrows, ncols, runningSums 0 (0 :: (List.range nrows).map fun r => (rowOf sums r).length),
      sums.map Entry.col, sums.map Prod.snd⟩ : Csr V) =
      Csr.ofRows ncols ((List.range nrows).map (rowOf sums)) := by
  simp only [Csr.ofRows, flatten_rowOf h, List.map_map, List.length_map, List.length_range, offsets,
    runningSums, Nat.add_zero]
  rfl

/-- One count for every row, after the slot of the leading zero. -/
theorem count_rows (h : ∀ e ∈ sums, e.row < nrows) :
    sums.foldlM (fun rowPtr e => modifyAt (e.row + 1) (· + 1) rowPtr)
      (List.replicate (nrows + 1) 0) =
      some (0 :: (List.range nrows).map fun r => (rowOf sums r).length) := by
  rw [foldlM_modifyAt]
  · congr 1
    apply List.ext_getElem (by simp)
    intro i hi hi'
    rw [List.getElem_mapIdx, foldl_succ]
    cases i with
    | zero => simp
    | succ i => simp [rowOf]
  · intro e he
    simpa using h e he

theorem sorted_sums [Add V] {order : List (Fin A.staged)}
    (h : order.Pairwise fun i j => A.key i ≤ A.key j) :
    Sorted A.nrows A.ncols (A.sums order) := by
  have hkey : ∀ e ∈ A.sums order, ∃ i, A.key i = e.1 := by
    intro e he
    have hmem := (mem_keys_accumulate _ e.1).mp (List.mem_map_of_mem he)
    rw [List.map_map] at hmem
    obtain ⟨i, -, hi⟩ := List.mem_map.mp hmem
    exact ⟨i, hi⟩
  constructor
  · apply keys_accumulate_lt
    rw [List.pairwise_map]
    exact h
  · intro e he
    obtain ⟨i, hi⟩ := hkey e he
    rw [Entry.row, ← hi]
    exact A.row_lt_nrows i
  · intro e he
    obtain ⟨i, hi⟩ := hkey e he
    rw [Entry.col, ← hi]
    exact A.col_lt_ncols i

section Assembled

variable [Add V] (A)

def total : List (Entry V) := A.sums (sortByKey A.key (List.finRange A.staged))

theorem sorted_total : Sorted A.nrows A.ncols A.total := sorted_sums (sorted_sortByKey _ _)

def assembled : Csr V := Csr.ofRows A.ncols ((List.range A.nrows).map (rowOf A.total))

theorem assemble_eq : A.assemble = some A.assembled := by
  rw [assembled, ← ofRows_rowOf A.sorted_total]
  change (A.total.foldlM _ _ >>= _) = _
  rw [count_rows A.sorted_total.row_lt]
  rfl

theorem fromParts_assembled :
    Csr.fromParts A.nrows A.ncols
      (runningSums 0 (0 :: (List.range A.nrows).map fun r => (rowOf A.total r).length))
      (A.total.map Entry.col) (A.total.map Prod.snd) = some A.assembled := by
  have hok : ∀ row ∈ (List.range A.nrows).map (rowOf A.total), Csr.RowOk A.ncols row := by
    intro row hrow
    obtain ⟨r, -, rfl⟩ := List.mem_map.mp hrow
    exact rowOk_rowOf A.sorted_total r
  have hparts := Csr.fromParts_ofRows (ofRows_rowOf A.sorted_total) hok
  exact hparts.trans (congrArg some (ofRows_rowOf A.sorted_total))

end Assembled

end Coo

end FrankenSim.Sparse
