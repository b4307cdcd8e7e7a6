import FrankenSim.Library.BinarySearch
import FrankenSim.Sparse.Kernels
import FrankenSim.Sparse.Tiles

/-!
# Compact columns and sharded products

The compact format keeps its column indices in 32 bits. Its sharded product cuts
the rows at points found by binary search in the row offsets, gives every worker
the part of the output that belongs to its rows, and leaves out empty shards.
-/
namespace FrankenSim.Sparse

open Library

/-- Compressed rows with 32-bit columns and the number of rows that have entries. -/
structure CsrCompact (V : Type) where
  nrows : ℕ
  ncols : ℕ
  nonemptyRows : ℕ
  rowPtr : List ℕ
  colIdx : List UInt32
  vals : List V

namespace CsrCompact

variable {V : Type}

def toU32 (c : ℕ) : Option UInt32 := if c < UInt32.size then some (UInt32.ofNat c) else none

def pushRow (A : Csr V) (B : CsrCompact V) (r : ℕ) : Option (CsrCompact V) := do
  let row ← A.row r
  let cols ← row.1.mapM toU32
  some
    { B with
      nonemptyRows := B.nonemptyRows + if row.1.isEmpty then 0 else 1
      colIdx := B.colIdx ++ cols
      vals := B.vals ++ row.2
      rowPtr := B.rowPtr ++ [(B.colIdx ++ cols).length] }

def fromCsr (A : Csr V) : Option (CsrCompact V) := do
  guard (A.ncols < UInt32.size)
  (List.range A.nrows).foldlM (pushRow A) ⟨A.nrows, A.ncols, 0, [0], [], []⟩

def entries (B : CsrCompact V) (r : ℕ) : Option (List (ℕ × V)) := do
  let lo ← B.rowPtr[r]?
  let hi ← B.rowPtr[r + 1]?
  let cols ← span lo hi B.colIdx
  let vals ← span lo hi B.vals
  some ((cols.map UInt32.toNat).zip vals)

/-- Row bounds of the shards, balanced by the number of entries. -/
def shardBounds (B : CsrCompact V) (host : Option ℕ+) (threads : ℕ) : List ℕ :=
  let t := boundedWorkerCount host threads B.nonemptyRows
  let total := B.vals.length
  0 :: (List.range' 1 (t - 1)).map (fun target =>
    partitionPoint (fun filled => filled * t < target * total) B.rowPtr.tail + 1) ++ [B.nrows]

/-- The rows of a worker and its part of the output. -/
structure Shard where
  lo : ℕ
  hi : ℕ
  start : ℕ
  len : ℕ

/-- Split the output at the bounds: `start` is where the part that is left begins,
`rest` its length. An underflow and a split outside the part are panics. -/
def shardsFrom (offset start rest : ℕ) : List (ℕ × ℕ) → Option (List Shard)
  | [] => some []
  | (lo, hi) :: windows => do
    guard (offset ≤ hi)
    guard (hi - offset ≤ rest)
    let later ← shardsFrom hi (start + (hi - offset)) (rest - (hi - offset)) windows
    some (if lo = hi then later else ⟨lo, hi, start, hi - offset⟩ :: later)

section Kernels

variable [FusedMulAdd V]

def spmv (B : CsrCompact V) (x y : List V) : Option (Stores V) := do
  guard (x.length = B.ncols)
  guard (y.length = B.nrows)
  (List.range y.length).mapM fun r => do
    let row ← B.entries r
    let acc ← dot x row
    some (r, [acc])

def shardBody (B : CsrCompact V) (x : List V) (lo hi len : ℕ) : Option (Stores V) :=
  (List.range' lo (hi - lo)).mapM fun r => do
    let row ← B.entries r
    let acc ← dot x row
    guard (r - lo < len)
    some (r - lo, [acc])

/-- The stores of all workers, one worker after the other as they finish. -/
def spmvSharded (finish : Completion) (host : Option ℕ+) (B : CsrCompact V) (x y : List V)
    (threads : ℕ) : Option (Stores V) := do
  guard (x.length = B.ncols)
  guard (y.length = B.nrows)
  let bounds := B.shardBounds host threads
  let shards ← shardsFrom 0 0 y.length (bounds.zip bounds.tail)
  let stores ← (finish.order (List.range shards.length)).mapM fun h => do
    let shard ← shards[h]?
    let mine ← B.shardBody x shard.lo shard.hi shard.len
    some (mine.map fun s => (shard.start + s.1, s.2))
  some stores.flatten

end Kernels

def ofRows (nrows ncols : ℕ) (rows : List (List (ℕ × V))) : CsrCompact V where
  nrows := nrows
  ncols := ncols
  nonemptyRows := rows.countP fun row => !row.isEmpty
  rowPtr := offsets rows
  colIdx := rows.flatten.map fun p => UInt32.ofNat p.1
  vals := rows.flatten.map Prod.snd

section Rows

variable {nrows ncols : ℕ} {rows : List (List (ℕ × V))}

theorem pushRow_ofRows {A : Csr V} {r : ℕ} {row : List (ℕ × V)}
    (hrow : A.row r = some (row.map Prod.fst, row.map Prod.snd)) (hok : Csr.RowOk ncols row)
    (hncols : ncols < UInt32.size) :
    pushRow A (ofRows nrows ncols rows) r = some (ofRows nrows ncols (rows ++ [row])) := by
  have hcols : (row.map Prod.fst).mapM toU32 =
      some ((row.map Prod.fst).map UInt32.ofNat) := by
    apply mapM_some
    intro c hc
    obtain ⟨p, hp, rfl⟩ := List.mem_map.mp hc
    exact if_pos ((hok.2 p hp).trans hncols)
  simp only [pushRow, hrow, Option.bind_eq_bind, Option.bind_some, hcols, Option.some.injEq, ofRows,
    offsets_concat, List.flatten_append, List.flatten_singleton, List.map_append, List.map_map,
    List.countP_append, List.length_append, List.length_map, CsrCompact.mk.injEq, true_and]
  refine ⟨?_, rfl, trivial⟩
  cases row with
  | nil => rfl
  | cons p row => rfl

theorem fromCsr_ofRows (hrows : ∀ row ∈ rows, Csr.RowOk ncols row) (hncols : ncols < UInt32.size) :
    fromCsr (Csr.ofRows ncols rows) = some (ofRows rows.length ncols rows) := by
  have hloop : ∀ n ≤ rows.length, (List.range n).foldlM (pushRow (Csr.ofRows ncols rows))
      ⟨rows.length, ncols, 0, [0], [], []⟩ = some (ofRows rows.length ncols (rows.take n)) := by
    intro n
    induction n with
    | zero => exact fun _ => rfl
    | succ n ih =>
      intro hn
      rw [List.range_succ, List.foldlM_append, ih (Nat.le_of_lt hn), Option.bind_eq_bind,
        Option.bind_some, List.foldlM_cons,
        pushRow_ofRows (Csr.row_ofRows hn) (hrows _ (List.getElem_mem hn)) hncols,
        List.take_succ_eq_append_getElem hn]
      rfl
  have hall := hloop rows.length (Nat.le_refl _)
  rw [List.take_length] at hall
  simp only [fromCsr, Csr.ofRows, hncols, guard_true, Option.pure_def, Option.bind_eq_bind,
    Option.bind_some]
  exact hall

theorem entries_ofRows (hrows : ∀ row ∈ rows, Csr.RowOk ncols row) (hncols : ncols < UInt32.size)
    {r : ℕ} (hr : r < rows.length) :
    (ofRows nrows ncols rows).entries r = some (rowAt rows r) := by
  have htoNat : ((rows[r].map fun p => UInt32.ofNat p.1).map UInt32.toNat) =
      rows[r].map Prod.fst := by
    rw [List.map_map]
    apply List.map_congr_left
    intro p hp
    exact UInt32.toNat_ofNat_of_lt' (((hrows _ (List.getElem_mem hr)).2 p hp).trans hncols)
  simp only [entries, ofRows, getElem?_offsets (Nat.le_of_lt hr), getElem?_offsets hr,
    Option.bind_eq_bind, Option.bind_some, span_map, span_offsets hr, Option.map_some, htoNat,
    zip_map_fst_snd, rowAt_of_lt hr]

section Products

variable [FusedMulAdd V]

theorem fills_spmv (hrows : ∀ row ∈ rows, Csr.RowOk ncols row) (hncols : ncols < UInt32.size)
    {x y : List V} (hx : x.length = ncols) (hy : y.length = rows.length) :
    Fills ((ofRows rows.length ncols rows).spmv x y) y (product rows x) := by
  have hbody : (List.range y.length).mapM (fun r => do
      let row ← (ofRows rows.length ncols rows).entries r
      let acc ← dot x row
      some (r, [acc])) =
      some ((List.range y.length).map fun r => (r, [rowValue x (rowAt rows r)])) := by
    apply mapM_some
    intro r hr
    have hr : r < rows.length := hy ▸ List.mem_range.mp hr
    rw [entries_ofRows hrows hncols hr, Option.bind_eq_bind, Option.bind_some, dot_eq]
    · rfl
    · intro p hp
      rw [hx]
      exact (rowAt_ok hrows hr).2 p hp
  have hspmv : (ofRows rows.length ncols rows).spmv x y =
      some ((List.range rows.length).map fun r => (r, [rowValue x (rowAt rows r)])) := by
    rw [← hy, ← hbody]
    simp [spmv, ofRows, hx, hy]
  rw [hspmv]
  exact fills_cells hy (List.Perm.refl _)

theorem shardBody_ofRows (hrows : ∀ row ∈ rows, Csr.RowOk ncols row) (hncols : ncols < UInt32.size)
    {x : List V} (hx : x.length = ncols) {lo hi : ℕ} (hhi : hi ≤ rows.length) :
    (ofRows nrows ncols rows).shardBody x lo hi (hi - lo) =
      some ((List.range' lo (hi - lo)).map fun r => (r - lo, [rowValue x (rowAt rows r)])) := by
  apply mapM_some
  intro r hr
  rw [List.mem_range'_1] at hr
  have hlt : r - lo < hi - lo := by omega
  rw [entries_ofRows hrows hncols (by omega), Option.bind_eq_bind, Option.bind_some, dot_eq]
  · simp [hlt]
  · intro p hp
    rw [hx]
    exact (rowAt_ok hrows (by omega)).2 p hp

end Products

end Rows

section Bounds

variable {ncols : ℕ} {rows : List (List (ℕ × V))}

/-- The rows whose entries fall short of a share are the first ones. -/
theorem isPartitionPoint_share (t share : ℕ) :
    IsPartitionPoint (fun filled => filled * t < share) (offsets rows).tail
      (partitionPoint (fun filled => filled * t < share) (offsets rows).tail) := by
  apply isPartitionPoint_partitionPoint
  apply (List.pairwise_cons.mp (runningSums_sorted 0 (rows.map List.length))).2.imp
  intro a b hab hb
  rw [decide_eq_true_eq] at hb ⊢
  exact (Nat.mul_le_mul_right t hab).trans_lt hb

theorem shardBounds_ascend (host : Option ℕ+) (threads : ℕ) :
    ∃ bounds, (ofRows rows.length ncols rows).shardBounds host threads = 0 :: bounds ∧
      (0 :: bounds).Pairwise (· ≤ ·) ∧ (∀ b ∈ bounds, b ≤ rows.length) ∧
      (0 :: bounds).getLast (List.cons_ne_nil _ _) = rows.length := by
  let t := boundedWorkerCount host threads (rows.countP fun row => !row.isEmpty)
  let point (target : ℕ) : ℕ := partitionPoint
    (fun filled => filled * t < target * (rows.flatten.map Prod.snd).length) (offsets rows).tail + 1
  have hpoint : ∀ target ∈ List.range' 1 (t - 1), point target ≤ rows.length := by
    intro target htarget
    rw [List.mem_range'_1] at htarget
    have ht : t ≤ max (rows.countP fun row => !row.isEmpty) 1 := by
      show min (min _ _) _ ≤ _
      omega
    have hne : rows ≠ [] := by
      rintro rfl
      simp at ht
      omega
    have hlast : (offsets rows).tail.getLast? = some rows.flatten.length := by
      rw [List.getLast?_tail, if_neg]
      · exact getLast?_offsets
      · rw [length_offsets]
        have := List.length_pos_of_ne_nil hne
        omega
    have hlt := (@isPartitionPoint_share _ rows t
      (target * (rows.flatten.map Prod.snd).length)).lt_length hlast (by
        rw [decide_eq_true_eq, List.length_map, Nat.mul_comm target]
        exact Nat.not_lt.mpr (Nat.mul_le_mul_left _ (by omega)))
    rw [List.length_tail, length_offsets] at hlt
    exact hlt
  have hbounds : ∀ b ∈ (List.range' 1 (t - 1)).map point ++ [rows.length], b ≤ rows.length := by
    intro b hb
    obtain hb | hb := List.mem_append.mp hb
    · obtain ⟨target, htarget, rfl⟩ := List.mem_map.mp hb
      exact hpoint target htarget
    · exact (List.mem_singleton.mp hb).le
  refine ⟨(List.range' 1 (t - 1)).map point ++ [rows.length], rfl, ?_, hbounds, by simp⟩
  rw [List.pairwise_cons]
  refine ⟨fun b _ => Nat.zero_le b, ?_⟩
  rw [List.pairwise_append]
  refine ⟨?_, List.pairwise_singleton _ _, ?_⟩
  · rw [List.pairwise_map]
    apply (List.pairwise_lt_range' 1 Nat.one_pos).imp
    intro m n hmn
    apply Nat.succ_le_succ
    apply (isPartitionPoint_share t _).mono (isPartitionPoint_share t _)
    intro filled hfilled
    rw [decide_eq_true_eq] at hfilled ⊢
    exact hfilled.trans_le (Nat.mul_le_mul_right _ (Nat.le_of_lt hmn))
  · intro b hb b' hb'
    rw [List.mem_singleton.mp hb']
    exact hbounds b (List.mem_append_left _ hb)

/-- The shards of ascending bounds are the windows that hold a row. -/
theorem shardsFrom_eq {lo n : ℕ} {bounds : List ℕ} (h : (lo :: bounds).Pairwise (· ≤ ·))
    (hn : ∀ b ∈ bounds, b ≤ n) :
    shardsFrom lo lo (n - lo) ((lo :: bounds).zip bounds) =
      some ((((lo :: bounds).zip bounds).filter fun w => w.1 ≠ w.2).map fun w =>
        ⟨w.1, w.2, w.1, w.2 - w.1⟩) := by
  induction bounds generalizing lo with
  | nil => rfl
  | cons hi bounds ih =>
    rw [List.pairwise_cons] at h
    have hle := h.1 hi List.mem_cons_self
    have hhi := hn hi List.mem_cons_self
    have hlater := ih h.2 fun b hb => hn b (List.mem_cons_of_mem _ hb)
    have hrest : n - lo - (hi - lo) = n - hi := by omega
    have hsplit : hi - lo ≤ n - lo := by omega
    rw [List.zip_cons_cons, shardsFrom, hrest, Nat.add_sub_cancel' hle, hlater]
    simp only [hle, hsplit, guard_true, Option.pure_def, Option.bind_eq_bind, Option.bind_some,
      List.filter_cons]
    by_cases heq : lo = hi <;> simp [heq]

theorem windows_cover {lo : ℕ} {bounds : List ℕ} (h : (lo :: bounds).Pairwise (· ≤ ·)) :
    (((lo :: bounds).zip bounds).flatMap fun w => List.range' w.1 (w.2 - w.1)) =
      List.range' lo ((lo :: bounds).getLast (List.cons_ne_nil _ _) - lo) := by
  induction bounds generalizing lo with
  | nil => simp
  | cons hi bounds ih =>
    rw [List.pairwise_cons] at h
    have hle := h.1 hi List.mem_cons_self
    have hlast : hi ≤ (hi :: bounds).getLast (List.cons_ne_nil _ _) := by
      obtain heq | hmem := List.mem_cons.mp (List.getLast_mem (List.cons_ne_nil hi bounds))
      · exact heq.ge
      · exact (List.pairwise_cons.mp h.2).1 _ hmem
    rw [List.zip_cons_cons, List.flatMap_cons, ih h.2, List.getLast_cons (List.cons_ne_nil _ _)]
    exact range'_split hle hlast

end Bounds

/-- The sharded product fills the output, whatever the number of threads, the
host and the order in which the workers finish. -/
theorem fills_spmvSharded [FusedMulAdd V] {ncols : ℕ} {rows : List (List (ℕ × V))}
    (hrows : ∀ row ∈ rows, Csr.RowOk ncols row) (hncols : ncols < UInt32.size)
    {x y : List V} (hx : x.length = ncols) (hy : y.length = rows.length) (finish : Completion)
    (host : Option ℕ+) (threads : ℕ) :
    Fills (spmvSharded finish host (ofRows rows.length ncols rows) x y threads) y
      (product rows x) := by
  obtain ⟨bounds, hbounds, hsorted, hle, hlast⟩ := @shardBounds_ascend _ ncols rows host threads
  let shards : List Shard := (((0 :: bounds).zip bounds).filter fun w => w.1 ≠ w.2).map fun w =>
    ⟨w.1, w.2, w.1, w.2 - w.1⟩
  let mine (h : ℕ) : List ℕ := (shards[h]?).elim [] fun s => List.range' s.lo (s.hi - s.lo)
  have hshards : shardsFrom 0 0 y.length ((0 :: bounds).zip bounds) = some shards := by
    rw [hy]
    exact shardsFrom_eq hsorted hle
  have hworkers : (finish.order (List.range shards.length)).mapM (fun h => do
      let shard ← shards[h]?
      let mine ← (ofRows rows.length ncols rows).shardBody x shard.lo shard.hi shard.len
      some (mine.map fun s => (shard.start + s.1, s.2))) =
      some ((finish.order (List.range shards.length)).map fun h =>
        (mine h).map fun r => (r, [rowValue x (rowAt rows r)])) := by
    apply mapM_some
    intro h hh
    have hlt := List.mem_range.mp ((finish.perm _).mem_iff.mp hh)
    obtain ⟨w, hw, hwh⟩ := List.mem_map.mp (List.getElem_mem hlt)
    have hbound : w.2 ≤ rows.length := hle w.2 (List.of_mem_zip (List.mem_of_mem_filter hw)).2
    simp only [mine, List.getElem?_eq_getElem hlt, ← hwh, Option.bind_eq_bind, Option.bind_some,
      shardBody_ofRows hrows hncols hx hbound, Option.elim_some, List.map_map, Option.some.injEq]
    apply List.map_congr_left
    intro r hr
    rw [List.mem_range'_1] at hr
    simp only [Function.comp_apply, Nat.add_sub_cancel' hr.1]
  have hcover : ((List.range shards.length).map mine).flatten = List.range rows.length := by
    rw [map_range_elim, List.map_map, ← List.flatMap_def, flatMap_filter_of_nil]
    · have hwindows := windows_cover hsorted
      rw [hlast, Nat.sub_zero] at hwindows
      rw [List.range_eq_range', ← hwindows]
      rfl
    · intro w _ hw
      have heq : w.1 = w.2 := by simpa using hw
      simp [heq]
  have hsharded : spmvSharded finish host (ofRows rows.length ncols rows) x y threads =
      some (((finish.order (List.range shards.length)).map mine).flatten.map fun r =>
        (r, [rowValue x (rowAt rows r)])) := by
    have hx' : (ofRows rows.length ncols rows).ncols = x.length := hx.symm
    have hy' : (ofRows rows.length ncols rows).nrows = y.length := hy.symm
    simp only [spmvSharded, hbounds, List.tail_cons, hshards, hx', hy', guard_true,
      Option.pure_def, Option.bind_eq_bind, Option.bind_some]
    simp only [Option.bind_eq_bind] at hworkers
    rw [hworkers, Option.bind_some, List.map_flatten, List.map_map]
    rfl
  rw [hsharded]
  apply fills_cells hy
  rw [← hcover]
  exact ((finish.perm _).map mine).flatten

end CsrCompact

end FrankenSim.Sparse
