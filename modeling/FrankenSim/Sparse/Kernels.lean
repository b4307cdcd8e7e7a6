import FrankenSim.Library.Scoped
import FrankenSim.Library.Stores
import FrankenSim.Sparse.Csr
import Mathlib.Tactic.Linarith

/-!
# Products with a compressed matrix

The kernels on the canonical format, as the stores they make to their output
buffer. The fused multiply-add is left open. A kernel that keeps the order of a
row's columns computes the row's value from zero, one step for each entry.
-/
namespace FrankenSim.Sparse

open Library

/-- `mulAdd v x acc` is `v.mul_add(x, acc)`. -/
class FusedMulAdd (V : Type) extends Zero V where
  mulAdd : V → V → V → V

export FusedMulAdd (mulAdd)

variable {V : Type} [FusedMulAdd V]

def usizeMax : ℕ := 2 ^ 64 - 1

def dot (x : List V) (entries : List (ℕ × V)) : Option V :=
  entries.foldlM (fun acc p => do
    let xc ← x[p.1]?
    some (mulAdd p.2 xc acc)) 0

/-- `out.iter_mut().zip(xs)`: cells without a partner stay. -/
def zipUpdate {W : Type} (f : V → W → V) : List V → List W → List V
  | o :: out, x :: xs => f o x :: zipUpdate f out xs
  | out, _ => out

/-- The accumulation of one row against `w` columns at a time, whose entries in
row `c` of the right-hand side are the span from `lo c` to `hi c`. -/
def dotBlock (b : List V) (lo hi : ℕ → ℕ) (w : ℕ) (entries : List (ℕ × V)) : Option (List V) :=
  entries.foldlM (fun acc p => do
    let brow ← span (lo p.1) (hi p.1) b
    some (zipUpdate (fun a bv => mulAdd p.2 bv a) acc brow)) (List.replicate w 0)

namespace Csr

def spmv (A : Csr V) (x y : List V) : Option (Stores V) := do
  guard (x.length = A.ncols)
  guard (y.length = A.nrows)
  (List.range y.length).mapM fun r => do
    let row ← A.row r
    let acc ← dot x (row.1.zip row.2)
    some (r, [acc])

def checkBuffers (A : Csr V) (nrhs : ℕ) (x y : List V) : Option Unit := do
  guard (A.ncols * nrhs ≤ usizeMax)
  guard (A.nrows * nrhs ≤ usizeMax)
  guard (x.length = A.ncols * nrhs)
  guard (y.length = A.nrows * nrhs)

def spmm (A : Csr V) (x : List V) (k : ℕ) (y : List V) : Option (Stores V) := do
  A.checkBuffers k x y
  (List.range A.nrows).mapM fun r => do
    let row ← A.row r
    let out ← dotBlock x (fun c => c * k) (fun c => (c + 1) * k) k (row.1.zip row.2)
    some (r * k, out)

/-- Columns are taken eight at a time. -/
def spmmBlocked (A : Csr V) (b : List V) (nrhs : ℕ) (y : List V) : Option (Stores V) := do
  A.checkBuffers nrhs b y
  let blocks ← ((List.range (divCeil nrhs 8)).map (· * 8)).mapM fun j0 => do
    let jw := min 8 (nrhs - j0)
    (List.range A.nrows).mapM fun r => do
      let row ← A.row r
      let acc ← dotBlock b (fun c => c * nrhs + j0) (fun c => c * nrhs + j0 + jw) jw
        (row.1.zip row.2)
      some (r * nrhs + j0, acc)
  some blocks.flatten

end Csr

def rowValue (x : List V) (row : List (ℕ × V)) : V :=
  row.foldl (fun acc p => mulAdd p.2 (x.getD p.1 0) acc) 0

def product (rows : List (List (ℕ × V))) (x : List V) : List V :=
  (List.range rows.length).map fun r => rowValue x (rowAt rows r)

theorem dot_eq {x : List V} {row : List (ℕ × V)} (h : ∀ p ∈ row, p.1 < x.length) :
    dot x row = some (rowValue x row) := by
  have hstep : dot x row = row.foldlM (fun acc p =>
      some (mulAdd p.2 (x.getD p.1 0) acc)) 0 := by
    apply foldlM_congr
    intro p hp acc
    rw [List.getD_eq_getElem?_getD, List.getElem?_eq_getElem (h p hp)]
    rfl
  rw [hstep]
  exact List.foldlM_pure

omit [FusedMulAdd V] in
theorem zipUpdate_map {W : Type} (f : V → W → V) (g : ℕ → V) (h : ℕ → W) (l : List ℕ) :
    zipUpdate f (l.map g) (l.map h) = l.map fun j => f (g j) (h j) := by
  induction l with
  | nil => rfl
  | cons j l ih => rw [List.map_cons, List.map_cons, zipUpdate, ih, List.map_cons]

theorem span_eq_map {b : List V} {lo hi w : ℕ} (hw : lo + w = hi) (hle : hi ≤ b.length) :
    span lo hi b = some ((List.range w).map fun j => b.getD (lo + j) 0) := by
  unfold span
  rw [if_pos ⟨by omega, hle⟩, Option.some.injEq]
  apply List.ext_getElem
  · simp only [List.length_take, List.length_drop, List.length_map, List.length_range]
    omega
  · intro j hj hj'
    have hj : lo + j < b.length := by simp at hj'; omega
    simp [hj]

/-- A block of columns accumulates each column as the row would by itself. -/
theorem dotBlock_eq {b : List V} {lo hi : ℕ → ℕ} {w : ℕ} {row : List (ℕ × V)}
    (h : ∀ p ∈ row, lo p.1 + w = hi p.1 ∧ hi p.1 ≤ b.length) :
    dotBlock b lo hi w row = some ((List.range w).map fun j =>
      row.foldl (fun acc p => mulAdd p.2 (b.getD (lo p.1 + j) 0) acc) 0) := by
  have hrun (f : ℕ → V) : row.foldlM (fun acc p => do
      let brow ← span (lo p.1) (hi p.1) b
      some (zipUpdate (fun a bv => mulAdd p.2 bv a) acc brow)) ((List.range w).map f) =
      some ((List.range w).map fun j =>
        row.foldl (fun acc p => mulAdd p.2 (b.getD (lo p.1 + j) 0) acc) (f j)) := by
    induction row generalizing f with
    | nil => rfl
    | cons p row ih =>
      obtain ⟨hw, hle⟩ := h p List.mem_cons_self
      rw [List.foldlM_cons, span_eq_map hw hle, Option.bind_eq_bind, Option.bind_some,
        zipUpdate_map, Option.bind_some]
      exact ih (fun p hp => h p (List.mem_cons_of_mem _ hp)) _
  have hzero : List.replicate w (0 : V) = (List.range w).map fun _ => 0 := by
    simp
  rw [dotBlock, hzero]
  exact hrun _

section Rows

variable {ncols : ℕ} {rows : List (List (ℕ × V))}

theorem spmv_ofRows (hrows : ∀ row ∈ rows, Csr.RowOk ncols row) {x y : List V}
    (hx : x.length = ncols) (hy : y.length = rows.length) :
    (Csr.ofRows ncols rows).spmv x y =
      some ((List.range rows.length).map fun r => (r, [rowValue x (rowAt rows r)])) := by
  have hbody : (List.range y.length).mapM (fun r => do
      let row ← (Csr.ofRows ncols rows).row r
      let acc ← dot x (row.1.zip row.2)
      some (r, [acc])) =
      some ((List.range y.length).map fun r => (r, [rowValue x (rowAt rows r)])) := by
    apply mapM_some
    intro r hr
    have hr : r < rows.length := hy ▸ List.mem_range.mp hr
    rw [row_rowAt hr, Option.bind_eq_bind, Option.bind_some, zip_map_fst_snd, dot_eq]
    · rfl
    · intro p hp
      rw [hx]
      exact (rowAt_ok hrows hr).2 p hp
  rw [← hy, ← hbody]
  simp [Csr.spmv, Csr.ofRows, hx, hy]

def column (n k j : ℕ) (m : List V) : List V := (List.range n).map fun r => m.getD (r * k + j) 0

def productCols (ncols : ℕ) (rows : List (List (ℕ × V))) (k : ℕ) (x : List V) : List V :=
  (List.range (rows.length * k)).map fun i =>
    rowValue (column ncols k (i % k) x) (rowAt rows (i / k))

variable {k : ℕ} {x y : List V}

theorem getElem?_productCols {r j : ℕ} (hr : r < rows.length) (hj : j < k) :
    (productCols ncols rows k x)[r * k + j]? =
      some (rowValue (column ncols k j x) (rowAt rows r)) := by
  have hlt : r * k + j < rows.length * k := by nlinarith
  have hmod : (r * k + j) % k = j := by
    rw [Nat.mul_comm, Nat.mul_add_mod, Nat.mod_eq_of_lt hj]
  have hdiv : (r * k + j) / k = r := by
    rw [Nat.mul_comm, Nat.mul_add_div (by omega), Nat.div_eq_of_lt hj, Nat.add_zero]
  rw [productCols, List.getElem?_map, List.getElem?_range hlt, Option.map_some, hmod, hdiv]

theorem column_productCols {j : ℕ} (hj : j < k) :
    column rows.length k j (productCols ncols rows k x) = product rows (column ncols k j x) := by
  apply List.map_congr_left
  intro r hr
  rw [List.getD_eq_getElem?_getD, getElem?_productCols (List.mem_range.mp hr) hj,
    Option.getD_some]

theorem rowValue_column {row : List (ℕ × V)} (h : Csr.RowOk ncols row) (j : ℕ) :
    row.foldl (fun acc p => mulAdd p.2 (x.getD (p.1 * k + j) 0) acc) 0 =
      rowValue (column ncols k j x) row := by
  apply List.foldl_ext
  intro acc p hp
  simp [column, h.2 p hp]

/-- The stores of a rectangle of the product, in the columns from `j0` on. -/
def stripStores (ncols : ℕ) (rows : List (List (ℕ × V))) (k : ℕ) (x : List V) (j0 w : ℕ) :
    Stores V :=
  (List.range rows.length).map fun r =>
    (r * k + j0, (List.range w).map fun j => rowValue (column ncols k (j0 + j) x) (rowAt rows r))

theorem rows_mapM (hrows : ∀ row ∈ rows, Csr.RowOk ncols row) (hx : x.length = ncols * k)
    {lo hi : ℕ → ℕ} {place : ℕ → ℕ} {j0 w : ℕ} (hlo : ∀ c, lo c = c * k + j0)
    (hhi : ∀ c, hi c = c * k + j0 + w) (hat : ∀ r, place r = r * k + j0) (hw : j0 + w ≤ k) :
    (List.range rows.length).mapM (fun r => do
      let row ← (Csr.ofRows ncols rows).row r
      let out ← dotBlock x lo hi w (row.1.zip row.2)
      some (place r, out)) = some (stripStores ncols rows k x j0 w) := by
  apply mapM_some
  intro r hr
  have hr := List.mem_range.mp hr
  have hok := rowAt_ok hrows hr
  rw [row_rowAt hr, Option.bind_eq_bind, Option.bind_some, zip_map_fst_snd, dotBlock_eq]
  · simp only [Option.bind_eq_bind, Option.bind_some, hat, Option.some.injEq, Prod.mk.injEq, true_and]
    apply List.map_congr_left
    intro j _
    simp only [hlo, Nat.add_assoc]
    exact rowValue_column hok (j0 + j)
  · intro p hp
    have hlt := hok.2 p hp
    rw [hlo, hhi, hx]
    exact ⟨rfl, by nlinarith⟩

theorem written_stripStores (j0 w : ℕ) : written (stripStores ncols rows k x j0 w) =
    (List.range rows.length).flatMap fun r => (List.range w).map fun j => r * k + (j0 + j) := by
  simp only [written, stripStores, List.flatMap_map, List.length_map, List.length_range,
    Nat.add_assoc]

/-- Strips that cover every column once fill the buffer with the product. -/
theorem fills_strips (hy : y.length = rows.length * k) {strips : List (ℕ × ℕ)}
    (hin : ∀ s ∈ strips, s.1 + s.2 ≤ k)
    (hcover : (strips.flatMap fun s => (List.range s.2).map (s.1 + ·)) = List.range k) :
    Fills (some (strips.flatMap fun s => stripStores ncols rows k x s.1 s.2)) y
      (productCols ncols rows k x) := by
  apply fills_of_perm
  · rw [productCols, List.length_map, List.length_range, hy]
  · intro st hst
    obtain ⟨s, hs, hst⟩ := List.mem_flatMap.mp hst
    obtain ⟨r, hr, rfl⟩ := List.mem_map.mp hst
    have hr := List.mem_range.mp hr
    have hs := hin s hs
    rw [List.length_map, List.length_range, hy]
    nlinarith
  · intro st hst j hj
    obtain ⟨s, hs, hst⟩ := List.mem_flatMap.mp hst
    obtain ⟨r, hr, rfl⟩ := List.mem_map.mp hst
    have hs := hin s hs
    rw [List.length_map, List.length_range] at hj
    rw [Nat.add_assoc, getElem?_productCols (List.mem_range.mp hr) (by omega), List.getElem?_map,
      List.getElem?_range hj, Option.map_some]
  · rw [hy, ← blocks_cover, ← hcover]
    have hwritten : written (strips.flatMap fun s => stripStores ncols rows k x s.1 s.2) =
        strips.flatMap fun s => (List.range rows.length).flatMap fun r =>
          (List.range s.2).map fun j => r * k + (s.1 + j) := by
      rw [written, List.flatMap_assoc]
      apply List.flatMap_congr
      intro s _
      exact written_stripStores s.1 s.2
    rw [hwritten]
    simp only [List.map_flatMap, List.map_map]
    exact flatMap_comm _ _ _

variable (hrows : ∀ row ∈ rows, Csr.RowOk ncols row)

include hrows

theorem fills_spmv {x y : List V} (hx : x.length = ncols) (hy : y.length = rows.length) :
    Fills ((Csr.ofRows ncols rows).spmv x y) y (product rows x) := by
  rw [spmv_ofRows hrows hx hy]
  exact fills_cells hy (List.Perm.refl _)

section Columns

variable (hx : x.length = ncols * k) (hy : y.length = rows.length * k)
  (hxmax : x.length ≤ usizeMax) (hymax : y.length ≤ usizeMax)

include hx hy hxmax hymax

omit [FusedMulAdd V] hrows in
theorem checkBuffers_ofRows : (Csr.ofRows ncols rows).checkBuffers k x y = some () := by
  simp [Csr.checkBuffers, Csr.ofRows, ← hx, ← hy, hxmax, hymax]

theorem fills_spmm : Fills ((Csr.ofRows ncols rows).spmm x k y) y (productCols ncols rows k x) := by
  have hbody : (Csr.ofRows ncols rows).spmm x k y = some (stripStores ncols rows k x 0 k) := by
    rw [Csr.spmm, checkBuffers_ofRows hx hy hxmax hymax, Option.bind_eq_bind, Option.bind_some]
    apply rows_mapM hrows hx
    · exact fun c => rfl
    · exact fun c => Nat.succ_mul c k
    · exact fun r => rfl
    · omega
  have hfills := @fills_strips _ _ ncols rows k x y hy [(0, k)] (by simp) (by simp)
  rw [hbody]
  simpa using hfills

theorem fills_spmmBlocked :
    Fills ((Csr.ofRows ncols rows).spmmBlocked x k y) y (productCols ncols rows k x) := by
  have hbody : (Csr.ofRows ncols rows).spmmBlocked x k y =
      some (((List.range (divCeil k 8)).map fun b => (b * 8, min 8 (k - b * 8))).flatMap
        fun s => stripStores ncols rows k x s.1 s.2) := by
    have hblocks : ((List.range (divCeil k 8)).map (· * 8)).mapM (fun j0 =>
        (List.range (Csr.ofRows ncols rows).nrows).mapM fun r => do
          let row ← (Csr.ofRows ncols rows).row r
          let acc ← dotBlock x (fun c => c * k + j0) (fun c => c * k + j0 + min 8 (k - j0))
            (min 8 (k - j0)) (row.1.zip row.2)
          some (r * k + j0, acc)) =
        some (((List.range (divCeil k 8)).map (· * 8)).map fun j0 =>
          stripStores ncols rows k x j0 (min 8 (k - j0))) := by
      apply mapM_some
      intro j0 hj0
      obtain ⟨b, hb, rfl⟩ := List.mem_map.mp hj0
      have hlt := strip_lt (List.mem_range.mp hb)
      apply rows_mapM hrows hx
      · exact fun c => rfl
      · exact fun c => rfl
      · exact fun r => rfl
      · omega
    rw [Csr.spmmBlocked, checkBuffers_ofRows hx hy hxmax hymax, Option.bind_eq_bind,
      Option.bind_some]
    change Option.bind _ _ = _
    rw [hblocks, Option.bind_some, List.flatMap_def, List.map_map, List.map_map]
    rfl
  rw [hbody]
  apply fills_strips hy
  · intro s hs
    obtain ⟨b, hb, rfl⟩ := List.mem_map.mp hs
    have hlt := strip_lt (List.mem_range.mp hb)
    dsimp only
    omega
  · rw [List.flatMap_map]
    exact strips_cover_divCeil (by omega) k

end Columns

end Rows

end FrankenSim.Sparse
