import FrankenSim.Library.CountingSort
import FrankenSim.Sparse.Assembly

/-!
# Transposition

A counting sort by the column. The rows are visited in ascending order, so the rows
that a column is stored in come out ascending, and transposing twice changes nothing.
-/
namespace FrankenSim.Sparse

open Library

variable {V : Type}

structure Scatter (V : Type) where
  colIdx : List ℕ
  vals : List V
  cursor : List ℕ

/-- Put an entry of row `r` where the cursor of its column points. -/
def Scatter.place (s : Scatter V) (r : ℕ) (e : ℕ × V) : Option (Scatter V) := do
  let slot ← s.cursor[e.1]?
  let colIdx ← modifyAt slot (fun _ => r) s.colIdx
  let vals ← modifyAt slot (fun _ => e.2) s.vals
  let cursor ← modifyAt e.1 (· + 1) s.cursor
  some ⟨colIdx, vals, cursor⟩

namespace Csr

def nnz (A : Csr V) : ℕ := A.vals.length

def countColumns (A : Csr V) : Option (List ℕ) :=
  (List.range A.nrows).foldlM (fun counts r => do
    let row ← A.row r
    row.1.foldlM (fun counts c => modifyAt (c + 1) (· + 1) counts) counts)
    (List.replicate (A.ncols + 1) 0)

def transpose [Zero V] (A : Csr V) : Option (Csr V) := do
  let counts ← A.countColumns
  let rowPtr := runningSums 0 counts
  let s ← (List.range A.nrows).foldlM (fun (s : Scatter V) r => do
    let row ← A.row r
    (row.1.zip row.2).foldlM (fun s e => s.place r e) s)
    ⟨List.replicate A.nnz 0, List.replicate A.nnz 0, rowPtr⟩
  fromParts A.ncols A.nrows rowPtr s.colIdx s.vals

/-- The entries row by row, each under its column. -/
def byColumn (rows : List (List (ℕ × V))) : List (ℕ × ℕ × V) :=
  (List.range rows.length).flatMap fun r => (rowAt rows r).map fun e => (e.1, r, e.2)

def columns (ncols : ℕ) (rows : List (List (ℕ × V))) : List (List (ℕ × V)) :=
  (List.range ncols).map (keyed id (byColumn rows))

variable {ncols : ℕ} {rows : List (List (ℕ × V))}

theorem mem_byColumn {c r : ℕ} {v : V} : (c, r, v) ∈ byColumn rows ↔ (c, v) ∈ rowAt rows r := by
  simp only [byColumn, List.mem_flatMap, List.mem_range, List.mem_map, Prod.mk.injEq]
  constructor
  · rintro ⟨r', -, ⟨c', v'⟩, hmem, rfl, rfl, rfl⟩
    exact hmem
  · intro hmem
    refine ⟨r, ?_, (c, v), hmem, rfl, rfl, rfl⟩
    by_contra hr
    rw [rowAt, List.getD_eq_getElem?_getD, List.getElem?_eq_none (Nat.le_of_not_lt hr)] at hmem
    exact absurd hmem List.not_mem_nil

theorem byColumn_lt (hrows : ∀ row ∈ rows, RowOk ncols row) : ∀ e ∈ byColumn rows, e.1 < ncols := by
  rintro ⟨c, r, v⟩ he
  simp only [byColumn, List.mem_flatMap, List.mem_range, List.mem_map, Prod.mk.injEq] at he
  obtain ⟨r, hr, e, hmem, rfl, -, -⟩ := he
  exact (rowAt_ok hrows hr).2 e hmem

theorem length_byColumn : (byColumn rows).length = rows.flatten.length := by
  have hrows : (List.range rows.length).map (rowAt rows) = rows := by
    apply List.ext_getElem (by simp)
    intro r hr hr'
    rw [List.getElem_map, List.getElem_range, rowAt_of_lt hr']
  conv_rhs => rw [← hrows]
  rw [byColumn, List.length_flatMap, List.length_flatten, List.map_map]
  simp [Function.comp_def]

/-- A pass over the entries of all rows. -/
theorem foldlM_rows {σ : Type} (f : ℕ → σ → ℕ × V → Option σ) (s : σ) :
    (List.range rows.length).foldlM (fun s r => do
        let row ← (ofRows ncols rows).row r
        (row.1.zip row.2).foldlM (f r) s) s =
      (byColumn rows).foldlM (fun s e => f e.2.1 s (e.1, e.2.2)) s := by
  rw [byColumn, foldlM_flatMap]
  apply foldlM_congr
  intro r hr s
  rw [row_rowAt (List.mem_range.1 hr), List.foldlM_map, Option.bind_eq_bind, Option.bind_some,
    zip_map_fst_snd]

theorem countColumns_ofRows (hrows : ∀ row ∈ rows, RowOk ncols row) :
    (ofRows ncols rows).countColumns =
      some (0 :: (List.range ncols).map (countKey (byColumn rows))) := by
  have hloop := @foldlM_rows V ncols rows (List ℕ)
    (fun _ counts e => modifyAt (e.1 + 1) (· + 1) counts) (List.replicate (ncols + 1) 0)
  have hpass : (ofRows ncols rows).countColumns =
      (byColumn rows).foldlM (fun counts e => modifyAt (e.1 + 1) (· + 1) counts)
        (List.replicate (ncols + 1) 0) := by
    rw [← hloop]
    apply foldlM_congr
    intro r hr counts
    rw [row_rowAt (by simpa [ofRows] using hr), Option.bind_eq_bind, Option.bind_some,
      Option.bind_some, zip_map_fst_snd, List.foldlM_map]
  rw [hpass, foldlM_modifyAt]
  · congr 1
    apply List.ext_getElem (by simp)
    intro i hi hi'
    rw [List.getElem_mapIdx, foldl_succ]
    cases i with
    | zero => simp
    | succ i => simp [countKey]
  · intro e he
    have := byColumn_lt hrows e he
    simpa using this

section Placing

variable {placed later : List (ℕ × ℕ × V)}

def scattered [Zero V] (ncols : ℕ) (placed later : List (ℕ × ℕ × V)) : Scatter V where
  colIdx := (filling ncols 0 Prod.fst placed later).flatten
  vals := (filling ncols 0 Prod.snd placed later).flatten
  cursor := cursors (ncols + 1) (placed ++ later) placed

variable [Zero V]

theorem place_scattered {c r : ℕ} {v : V} (hc : c < ncols) :
    (scattered ncols placed ((c, r, v) :: later)).place r (c, v) =
      some (scattered ncols (placed ++ [(c, r, v)]) later) := by
  have hcursor : (cursors (ncols + 1) (placed ++ (c, r, v) :: later) placed)[c]? =
      some (blockStart (placed ++ (c, r, v) :: later) c + countKey placed c) :=
    cursors_get (Nat.lt_succ_of_lt hc)
  have hcol := @place_filling ℕ (ℕ × V) ncols 0 Prod.fst placed later (c, r, v) hc
  have hval := @place_filling V (ℕ × V) ncols 0 Prod.snd placed later (c, r, v) hc
  have hnext := @cursors_concat (ℕ × V) (ncols + 1) placed (placed ++ (c, r, v) :: later) (c, r, v)
    (Nat.lt_succ_of_lt hc)
  dsimp only at hcol hval hnext
  simp only [Scatter.place, scattered, hcursor, hcol, hval, hnext, Option.bind_eq_bind,
    Option.bind_some, List.append_assoc, List.singleton_append]

theorem foldlM_place (hlater : ∀ e ∈ later, e.1 < ncols) :
    later.foldlM (fun s e => Scatter.place s e.2.1 (e.1, e.2.2)) (scattered ncols placed later) =
      some (scattered ncols (placed ++ later) []) := by
  induction later generalizing placed with
  | nil => simp
  | cons e later ih =>
    rw [List.foldlM_cons, place_scattered (hlater e List.mem_cons_self), Option.bind_eq_bind,
      Option.bind_some, ih fun e he => hlater e (List.mem_cons_of_mem _ he), List.append_assoc,
      List.singleton_append]

end Placing

theorem rowOk_columns (hrows : ∀ row ∈ rows, RowOk ncols row) :
    ∀ row ∈ columns ncols rows, RowOk rows.length row := by
  intro row hrow
  obtain ⟨c, -, rfl⟩ := List.mem_map.1 hrow
  constructor
  · apply List.Pairwise.isChain
    rw [keyed, List.map_map, List.pairwise_map]
    have hpairs : ((byColumn rows).filter (·.1 = c)).Pairwise fun e f => e.2.1 < f.2.1 := by
      rw [byColumn, List.filter_flatMap, List.pairwise_flatMap]
      constructor
      · intro r hr
        have hascend := List.isChain_iff_pairwise.1 (rowAt_ok hrows (List.mem_range.1 hr)).1
        rw [List.pairwise_map] at hascend
        have hnone : ((rowAt rows r).map fun e => (e.1, r, e.2)).Pairwise fun e f => e.1 < f.1 :=
          List.pairwise_map.2 hascend
        -- a row holds a column at most once
        apply (hnone.filter _).imp_of_mem
        intro e f he hf hlt
        have he := (List.mem_filter.1 he).2
        have hf := (List.mem_filter.1 hf).2
        rw [decide_eq_true_eq] at he hf
        omega
      · apply List.pairwise_lt_range.imp
        intro r r' hlt e he f hf
        obtain ⟨e', -, rfl⟩ := List.mem_map.1 (List.mem_of_mem_filter he)
        obtain ⟨f', -, rfl⟩ := List.mem_map.1 (List.mem_of_mem_filter hf)
        exact hlt
    exact hpairs
  · intro p hp
    obtain ⟨e, he, rfl⟩ := List.mem_map.1 hp
    have hmem := List.mem_of_mem_filter he
    simp only [byColumn, List.mem_flatMap, List.mem_range, List.mem_map] at hmem
    obtain ⟨r, hr, e', -, rfl⟩ := hmem
    exact hr

theorem mem_rowAt_columns {c r : ℕ} {v : V} (hrows : ∀ row ∈ rows, RowOk ncols row) :
    (r, v) ∈ rowAt (columns ncols rows) c ↔ (c, v) ∈ rowAt rows r := by
  rw [← @mem_byColumn V rows]
  by_cases hc : c < ncols
  · rw [rowAt_of_lt (by simpa [columns] using hc)]
    simp only [columns, List.getElem_map, List.getElem_range, keyed, id, List.mem_map,
      List.mem_filter, decide_eq_true_eq]
    constructor
    · rintro ⟨⟨c', p⟩, ⟨hmem, rfl⟩, rfl⟩
      exact hmem
    · intro hmem
      exact ⟨_, ⟨hmem, rfl⟩, rfl⟩
  · have hempty : rowAt (columns ncols rows) c = [] := by
      rw [rowAt, List.getD_eq_getElem?_getD, List.getElem?_eq_none (by simpa [columns] using hc)]
      rfl
    rw [hempty]
    constructor
    · intro hmem
      exact absurd hmem List.not_mem_nil
    · intro hmem
      exact absurd (byColumn_lt hrows _ hmem) hc

theorem transpose_ofRows [Zero V] (hrows : ∀ row ∈ rows, RowOk ncols row) :
    (ofRows ncols rows).transpose = some (ofRows rows.length (columns ncols rows)) := by
  have hbound := byColumn_lt hrows
  have hnnz : (ofRows ncols rows).nnz = blockStart (byColumn rows) ncols := by
    rw [blockStart_all hbound, length_byColumn, nnz, ofRows, List.length_map]
  have hstart : (⟨List.replicate (ofRows ncols rows).nnz 0, List.replicate (ofRows ncols rows).nnz 0,
      cursors (ncols + 1) (byColumn rows) []⟩ : Scatter V) =
      scattered ncols [] (byColumn rows) := by
    simp only [scattered, flatten_filling_nil, hnnz, List.nil_append]
  have hpass := @foldlM_rows V ncols rows (Scatter V) (fun r s e => s.place r e)
    (scattered ncols [] (byColumn rows))
  rw [foldlM_place hbound, List.nil_append] at hpass
  have hparts := @fromParts_ofRows V rows.length (columns ncols rows) _ rfl (rowOk_columns hrows)
  unfold transpose
  rw [countColumns_ofRows hrows, Option.bind_eq_bind, Option.bind_some]
  simp only [runningSums_counts]
  rw [hstart]
  change ((List.range rows.length).foldlM _ _ >>= _) = _
  rw [hpass]
  simp only [ofRows, columns, List.length_map, List.length_range, offsets_keyed] at hparts
  have hcol := @flatten_keyed ℕ (ℕ × V) ncols Prod.fst (byColumn rows)
  have hval := @flatten_keyed V (ℕ × V) ncols Prod.snd (byColumn rows)
  simp only [scattered, filling_all, Option.bind_eq_bind, Option.bind_some, ofRows, columns,
    offsets_keyed, List.length_map, List.length_range, hcol, hval]
  exact hparts

section Canonical

variable {A B : Csr V}

theorem rowAt_of_le {r : ℕ} (h : rows.length ≤ r) : rowAt rows r = [] := by
  rw [rowAt, List.getD_eq_getElem?_getD, List.getElem?_eq_none h, Option.getD_none]

theorem pairwise_rowAt (hrows : ∀ row ∈ rows, RowOk ncols row) {r : ℕ} :
    (rowAt rows r).Pairwise fun e f => e.1 < f.1 := by
  rcases Nat.lt_or_ge r rows.length with hr | hr
  · exact List.pairwise_map.1 (List.isChain_iff_pairwise.1 (rowAt_ok hrows hr).1)
  · rw [rowAt_of_le hr]
    exact List.Pairwise.nil

theorem stores_rows (h : A = ofRows A.ncols rows) {r c : ℕ} {v : V} :
    A.HasEntry r c v ↔ (c, v) ∈ rowAt rows r := by
  conv_lhs => rw [h]
  exact stores_ofRows

theorem row_of_rows (h : A = ofRows A.ncols rows) {r : ℕ} (hr : r < rows.length) :
    A.row r = some ((rowAt rows r).map Prod.fst, (rowAt rows r).map Prod.snd) := by
  conv_lhs => rw [h]
  exact row_rowAt hr

theorem row_of_le (h : A = ofRows A.ncols rows) {r : ℕ} (hr : rows.length ≤ r) :
    A.row r = none := by
  have hend : A.rowPtr[r + 1]? = none := by
    apply List.getElem?_eq_none
    rw [h, ofRows, length_offsets]
    omega
  rw [row, hend]
  cases A.rowPtr[r]? <;> rfl

/-- Canonical matrices of one shape with the same entries are equal. -/
theorem Canonical.ext (hA : A.Canonical) (hB : B.Canonical) (hnrows : A.nrows = B.nrows)
    (hncols : A.ncols = B.ncols) (h : ∀ r c v, A.HasEntry r c v ↔ B.HasEntry r c v) : A = B := by
  obtain ⟨rows, hArows, hok⟩ := hA.exists_rows
  obtain ⟨rows', hBrows, hok'⟩ := hB.exists_rows
  rw [hArows, hBrows] at h hnrows
  have hlength : rows.length = rows'.length := hnrows
  rw [hArows, hBrows, hncols]
  congr 1
  apply List.ext_getElem hlength
  intro r hr hr'
  have hpairs : ∀ {ncols : ℕ} {row : List (ℕ × V)}, RowOk ncols row →
      row.Pairwise fun e f => e.1 < f.1 := by
    intro ncols row hrow
    exact List.pairwise_map.1 (List.isChain_iff_pairwise.1 hrow.1)
  have hleft := hpairs (hok _ (List.getElem_mem hr))
  have hright := hpairs (hok' _ (List.getElem_mem hr'))
  have hnodup : ∀ {row : List (ℕ × V)}, (row.Pairwise fun e f => e.1 < f.1) → row.Nodup := by
    intro row hrow
    apply hrow.imp
    rintro e f hlt rfl
    exact Nat.lt_irrefl _ hlt
  have hperm : rows[r].Perm rows'[r] := by
    rw [List.perm_ext_iff_of_nodup (hnodup hleft) (hnodup hright)]
    rintro ⟨c, v⟩
    rw [← rowAt_of_lt hr, ← rowAt_of_lt hr', ← stores_ofRows, ← stores_ofRows]
    exact h r c v
  apply hperm.eq_of_pairwise _ hleft hright
  intro e f _ _ hlt hgt
  exact absurd (hlt.trans hgt) (Nat.lt_irrefl _)

theorem Canonical.stores_lt (hA : A.Canonical) {r c : ℕ} {v : V} (h : A.HasEntry r c v) :
    r < A.nrows ∧ c < A.ncols := by
  obtain ⟨rows, hrows, hok⟩ := hA.exists_rows
  rw [stores_rows hrows] at h
  rw [hrows]
  have hr : r < rows.length := by
    by_contra hr
    rw [rowAt_of_le (Nat.le_of_not_lt hr)] at h
    exact absurd h List.not_mem_nil
  exact ⟨hr, (rowAt_ok hok hr).2 _ h⟩

/-- Transposition of a canonical matrix exchanges rows and columns. -/
theorem Canonical.transpose [Zero V] (hA : A.Canonical) : ∃ T, A.transpose = some T ∧
    T.Canonical ∧ T.nrows = A.ncols ∧ T.ncols = A.nrows ∧
    ∀ r c v, T.HasEntry c r v ↔ A.HasEntry r c v := by
  obtain ⟨rows, hrows, hok⟩ := hA.exists_rows
  rw [hrows]
  refine ⟨_, transpose_ofRows hok, canonical_ofRows (rowOk_columns hok), ?_, rfl, ?_⟩
  · simp [ofRows, columns]
  · intro r c v
    rw [stores_ofRows, stores_ofRows, mem_rowAt_columns hok]

/-- Transposing twice gives the matrix back. -/
theorem Canonical.transpose_transpose [Zero V] {T : Csr V} (hA : A.Canonical)
    (hT : A.transpose = some T) : T.transpose = some A := by
  obtain ⟨T', hT', hcanonical, hnrows, hncols, hstores⟩ := hA.transpose
  rw [hT] at hT'
  cases hT'
  obtain ⟨B, hB, hBcanonical, hBnrows, hBncols, hBstores⟩ := hcanonical.transpose
  rw [hB]
  congr 1
  apply hBcanonical.ext hA (hBnrows.trans hncols) (hBncols.trans hnrows)
  intro r c v
  rw [hBstores, hstores]

end Canonical

end Csr

end FrankenSim.Sparse
