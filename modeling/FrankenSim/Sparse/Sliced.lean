import FrankenSim.Sparse.Packed
import FrankenSim.Sparse.Tiles

/-!
# Products with sliced rows

Three kernels on one layout: row by row, chunk by chunk with one accumulator for
each lane, and chunk by chunk on several workers. Every lane takes the entries of
its row in order and stops at the true length of the row, so padding slots are
never read.
-/
namespace FrankenSim.Sparse

open Library

namespace Sell

variable {V : Type} [FusedMulAdd V] (S : Sell V)

def laneStep (x : List V) (pos : ℕ) (acc : V) (k : ℕ) : Option V := do
  let base ← S.chunkPtr[pos / S.c]?
  let v ← S.vals[base + k * S.c + pos % S.c]?
  let col ← S.colIdx[base + k * S.c + pos % S.c]?
  let xc ← x[col]?
  some (mulAdd v xc acc)

def spmv (x y : List V) : Option (Stores V) := do
  guard (x.length = S.ncols)
  guard (y.length = S.nrows)
  S.perm.zipIdx.mapM fun p => do
    let len ← S.rowLen[p.2]?
    let acc ← (List.range len).foldlM (S.laneStep x p.2) 0
    some (p.1, [acc])

/-- Column `k` of a chunk, for the lanes whose row is that long. -/
def chunkStep (x : List V) (base row0 live : ℕ) (acc : List V) (k : ℕ) : Option (List V) := do
  let cols ← span (base + k * S.c) (base + k * S.c + S.c) S.colIdx
  let vals ← span (base + k * S.c) (base + k * S.c + S.c) S.vals
  (List.range live).foldlM (fun acc l => do
    let len ← S.rowLen[row0 + l]?
    if k < len then do
      let v ← vals[l]?
      let col ← cols[l]?
      let xc ← x[col]?
      modifyAt l (mulAdd v xc) acc
    else some acc) acc

def firstRow (ch : ℕ) : ℕ := min (min (ch * S.c) usizeMax) S.nrows

/-- One chunk: the accumulators, used again for the next chunk, and the stores. -/
def chunkBody (x acc : List V) (ch : ℕ) : Option (List V × Stores V) := do
  let base ← S.chunkPtr[ch]?
  let next ← S.chunkPtr[ch + 1]?
  guard (base ≤ next)
  let row0 := S.firstRow ch
  let live := min (S.nrows - row0) S.c
  let acc ← (List.range ((next - base) / S.c)).foldlM (S.chunkStep x base row0 live)
    (acc.map fun _ => 0)
  let stores ← (acc.zipIdx.take live).mapM fun a => do
    let orig ← S.perm[row0 + a.2]?
    some (orig, [a.1])
  some (acc, stores)

def chunkLoop (x acc : List V) (chunks : List ℕ) : Option (Stores V) := do
  let final ← chunks.foldlM (fun (s : List V × Stores V) ch => do
    let chunk ← S.chunkBody x s.1 ch
    some (chunk.1, s.2 ++ chunk.2)) (acc, [])
  some final.2

def nchunks : Option ℕ := if S.chunkPtr.length = 0 then none else some (S.chunkPtr.length - 1)

def spmvChunked (x y : List V) : Option (Stores V) := do
  guard (x.length = S.ncols)
  guard (y.length = S.nrows)
  let nchunks ← S.nchunks
  if nchunks = 0 then
    some []
  else
    S.chunkLoop x (List.replicate (min S.c S.nrows) 0) (List.range nchunks)

def shardBody (x : List V) (lo hi : ℕ) : Option (Stores V) :=
  if hi ≤ lo then
    some []
  else do
    guard (S.firstRow lo ≤ S.firstRow hi)
    S.chunkLoop x (List.replicate (min (S.nrows - S.firstRow lo) S.c) 0)
      (List.range' lo (hi - lo))

/-- The chunk ranges of the workers, `per` chunks each; `none` is a loop that
does not advance. -/
def chunkRanges (nchunks per lo : ℕ) : Option (List (ℕ × ℕ)) :=
  if lo < nchunks then
    if lo < min (min (lo + per) usizeMax) nchunks then do
      let later ← chunkRanges nchunks per (min (min (lo + per) usizeMax) nchunks)
      some ((lo, min (min (lo + per) usizeMax) nchunks) :: later)
    else none
  else some []
termination_by nchunks - lo

/-- The workers stage their stores, which are applied in the order of the chunks. -/
def spmvChunkedSharded (finish : Completion) (host : Option ℕ+) (x y : List V) (threads : ℕ) :
    Option (Stores V) := do
  guard (x.length = S.ncols)
  guard (y.length = S.nrows)
  let nchunks ← S.nchunks
  if nchunks = 0 then
    some []
  else do
    let t := boundedWorkerCount host threads nchunks
    let ranges ← chunkRanges nchunks (divCeil nchunks t) 0
    let stages ← joinAll finish (fun h => do
      let range ← ranges[h]?
      S.shardBody x range.1 range.2) (List.range ranges.length)
    some stages.flatten

section Lanes

variable {S} {ncols : ℕ} {rows : List (List (ℕ × V))} (hS : S.Packed ncols rows)
  (hrows : ∀ row ∈ rows, Csr.RowOk ncols row) {x : List V} (hx : x.length = ncols)

def partialValue (x : List V) (row : List (ℕ × V)) (k : ℕ) : V := rowValue x (row.take k)

theorem partialValue_succ {row : List (ℕ × V)} {k : ℕ} {p : ℕ × V} (h : row[k]? = some p) :
    partialValue x row (k + 1) = mulAdd p.2 (x.getD p.1 0) (partialValue x row k) := by
  rw [partialValue, List.take_add_one, h, rowValue, List.foldl_append]
  rfl

theorem partialValue_of_le {row : List (ℕ × V)} {k : ℕ} (h : row.length ≤ k) :
    partialValue x row k = rowValue x row := by
  rw [partialValue, List.take_of_length_le h]

include hS

omit [FusedMulAdd V] in
theorem Packed.perm_length : S.perm.length = rows.length := by
  rw [hS.perm.length_eq, List.length_range]

omit [FusedMulAdd V] in
theorem Packed.getElem?_perm {pos : ℕ} (h : pos < rows.length) :
    S.perm[pos]? = some (S.perm.getD pos 0) := by
  rw [List.getD_eq_getElem?_getD, List.getElem?_eq_getElem (by rw [hS.perm_length]; exact h),
    Option.getD_some]

omit [FusedMulAdd V] in
theorem Packed.getElem?_rowLen {pos : ℕ} (h : pos < rows.length) :
    S.rowLen[pos]? = some (S.sorted rows pos).length := by
  rw [hS.rowLen_eq, List.getElem?_map, hS.getElem?_perm h]
  rfl

omit [FusedMulAdd V] in
theorem Packed.getElem?_chunkPtr {ch : ℕ} (h : ch ≤ divCeil rows.length S.c) :
    S.chunkPtr[ch]? = some (S.base ch) := by
  rw [base, List.getD_eq_getElem?_getD,
    List.getElem?_eq_getElem (by rw [hS.chunkPtr_length]; omega), Option.getD_some]

include hrows hx

theorem Packed.column_lt {pos k : ℕ} (h : pos < rows.length) {p : ℕ × V}
    (hp : (S.sorted rows pos)[k]? = some p) : x[p.1]? = some (x.getD p.1 0) := by
  have horig : S.perm.getD pos 0 < rows.length := by
    have hmem := List.mem_of_getElem? (hS.getElem?_perm h)
    exact List.mem_range.mp (hS.perm.mem_iff.mp hmem)
  have hlt := (rowAt_ok hrows horig).2 p (List.mem_of_getElem? hp)
  rw [List.getD_eq_getElem?_getD, List.getElem?_eq_getElem (by rw [hx]; exact hlt),
    Option.getD_some]

theorem laneStep_eq {pos k : ℕ} (h : pos < rows.length) {p : ℕ × V}
    (hp : (S.sorted rows pos)[k]? = some p) (acc : V) :
    S.laneStep x pos acc k = some (mulAdd p.2 (x.getD p.1 0) acc) := by
  have hchunk := div_lt_divCeil hS.c_pos h
  have hcol := hS.colIdx_slot pos h k p hp
  have hval := hS.vals_slot pos h k p hp
  rw [slot] at hcol hval
  simp only [laneStep, hS.getElem?_chunkPtr (Nat.le_of_lt hchunk), Option.bind_eq_bind,
    Option.bind_some, hval, hcol, hS.column_lt hrows hx h hp]

theorem lane_eq {pos m : ℕ} (h : pos < rows.length) (hm : m ≤ (S.sorted rows pos).length) :
    (List.range m).foldlM (S.laneStep x pos) 0 = some (partialValue x (S.sorted rows pos) m) := by
  induction m with
  | zero => rfl
  | succ m ih =>
    have hp := List.getElem?_eq_getElem (l := S.sorted rows pos) hm
    rw [List.range_succ, List.foldlM_append, ih (Nat.le_of_lt hm), Option.bind_eq_bind,
      Option.bind_some, List.foldlM_cons, laneStep_eq hS hrows hx h hp, partialValue_succ hp]
    rfl

theorem fills_spmv {y : List V} (hy : y.length = rows.length) :
    Fills (S.spmv x y) y (product rows x) := by
  have hbody : S.perm.zipIdx.mapM (fun p => do
      let len ← S.rowLen[p.2]?
      let acc ← (List.range len).foldlM (S.laneStep x p.2) 0
      some (p.1, [acc])) =
      some (S.perm.zipIdx.map fun p => (p.1, [rowValue x (rowAt rows p.1)])) := by
    apply mapM_some
    intro p hp
    have hp := List.mem_zipIdx_iff_getElem?.mp hp
    have hpos : p.2 < rows.length := by
      rw [← hS.perm_length]
      exact (List.getElem?_eq_some_iff.mp hp).1
    have horig : S.perm.getD p.2 0 = p.1 := by
      rw [List.getD_eq_getElem?_getD, hp]
      rfl
    rw [hS.getElem?_rowLen hpos, Option.bind_eq_bind, Option.bind_some,
      lane_eq hS hrows hx hpos (Nat.le_refl _), partialValue_of_le (Nat.le_refl _), sorted, horig]
    rfl
  have hspmv : S.spmv x y = some (S.perm.map fun r => (r, [rowValue x (rowAt rows r)])) := by
    have hfst : S.perm.zipIdx.map (fun p => (p.1, [rowValue x (rowAt rows p.1)])) =
        S.perm.map fun r => (r, [rowValue x (rowAt rows r)]) := by
      conv_rhs => rw [← List.zipIdx_map_fst 0 S.perm, List.map_map]
      rfl
    rw [← hfst, ← hbody]
    simp [spmv, hS.ncols_eq, hS.nrows_eq, hx, hy]
  rw [hspmv]
  exact fills_cells hy hS.perm

def live (S : Sell V) (ch : ℕ) : ℕ := min S.c (S.nrows - ch * S.c)

omit hrows hx [FusedMulAdd V] in
theorem Packed.lane_lt {ch l : ℕ} (hl : l < S.live ch) : ch * S.c + l < rows.length ∧
    (ch * S.c + l) / S.c = ch ∧ (ch * S.c + l) % S.c = l := by
  have hc := hS.c_pos
  have hrow := hS.nrows_eq
  have hlt : l < S.c := Nat.lt_of_lt_of_le hl (Nat.min_le_left _ _)
  rw [live] at hl
  refine ⟨by omega, ?_, ?_⟩
  · rw [Nat.mul_comm, Nat.mul_add_div hc, Nat.div_eq_of_lt hlt, Nat.add_zero]
  · rw [Nat.mul_comm, Nat.mul_add_mod, Nat.mod_eq_of_lt hlt]

/-- What the accumulators hold after `k` columns of a chunk; the lanes after the
last row keep their zero. -/
def lanes (S : Sell V) (rows : List (List (ℕ × V))) (x : List V) (ch k : ℕ) (l : ℕ) : V :=
  if l < S.live ch then partialValue x (S.sorted rows (ch * S.c + l)) k else 0

theorem chunkStep_eq {ch w k n : ℕ} (hn : S.live ch ≤ n)
    (hw : S.base (ch + 1) = S.base ch + w * S.c) (hin : S.base (ch + 1) ≤ S.colIdx.length)
    (hk : k < w) :
    S.chunkStep x (S.base ch) (ch * S.c) (S.live ch) ((List.range n).map (S.lanes rows x ch k)) k =
      some ((List.range n).map (S.lanes rows x ch (k + 1))) := by
  have hstop : (k + 1) * S.c ≤ w * S.c := Nat.mul_le_mul_right _ hk
  rw [Nat.succ_mul] at hstop
  obtain ⟨cols, hcols, hcol⟩ := @exists_span _ _ _ S.colIdx
    (Nat.le_add_right (S.base ch + k * S.c) S.c) (by omega)
  obtain ⟨vals, hvals, hval⟩ := @exists_span _ _ _ S.vals
    (Nat.le_add_right (S.base ch + k * S.c) S.c) (by rw [hS.vals_length]; omega)
  rw [Nat.add_sub_cancel_left] at hcol hval
  simp only [chunkStep, hcols, hvals, Option.bind_eq_bind, Option.bind_some]
  have hsweep := @foldlM_sweep V (fun acc l => do
    let len ← S.rowLen[ch * S.c + l]?
    if k < len then do
      let v ← vals[l]?
      let col ← cols[l]?
      let xc ← x[col]?
      modifyAt l (mulAdd v xc) acc
    else some acc) (S.lanes rows x ch k) (S.lanes rows x ch (k + 1)) n (S.live ch) hn ?_
  · simp only [Option.bind_eq_bind] at hsweep
    rw [hsweep]
    congr 1
    apply List.map_congr_left
    intro l _
    split
    · rfl
    · rename_i hl
      rw [lanes, lanes, if_neg hl, if_neg hl]
  · intro l hl acc hlength hacc
    obtain ⟨hpos, hdiv, hmod⟩ := hS.lane_lt hl
    have hlc : l < S.c := Nat.lt_of_lt_of_le hl (Nat.min_le_left _ _)
    rw [lanes, if_pos hl] at hacc
    simp only [hS.getElem?_rowLen hpos, Option.bind_eq_bind, Option.bind_some, lanes, if_pos hl]
    split
    case isTrue hlen =>
      have hp := List.getElem?_eq_getElem (l := S.sorted rows (ch * S.c + l)) hlen
      have hcol' := hS.colIdx_slot _ hpos k _ hp
      have hval' := hS.vals_slot _ hpos k _ hp
      rw [slot, hdiv, hmod] at hcol' hval'
      simp only [hval l hlc, hval', Option.bind_some, hcol l hlc, hcol',
        hS.column_lt hrows hx hpos hp, modifyAt_eq_set hacc, partialValue_succ hp]
    case isFalse hlen =>
      have hwhole : partialValue x (S.sorted rows (ch * S.c + l)) (k + 1) =
          partialValue x (S.sorted rows (ch * S.c + l)) k := by
        rw [partialValue_of_le (by omega), partialValue_of_le (Nat.le_of_not_lt hlen)]
      rw [hwhole, set_eq_self hacc]

theorem chunk_lanes {ch w m n : ℕ} (hn : S.live ch ≤ n)
    (hw : S.base (ch + 1) = S.base ch + w * S.c) (hin : S.base (ch + 1) ≤ S.colIdx.length)
    (hm : m ≤ w) :
    (List.range m).foldlM (S.chunkStep x (S.base ch) (ch * S.c) (S.live ch))
      ((List.range n).map (S.lanes rows x ch 0)) =
      some ((List.range n).map (S.lanes rows x ch m)) := by
  induction m with
  | zero => rfl
  | succ m ih =>
    rw [List.range_succ, List.foldlM_append, ih (Nat.le_of_lt hm), Option.bind_eq_bind,
      Option.bind_some, List.foldlM_cons, chunkStep_eq hS hrows hx hn hw hin hm]
    rfl

def chunkStores (S : Sell V) (rows : List (List (ℕ × V))) (x : List V) (ch : ℕ) : Stores V :=
  (List.range (S.live ch)).map fun l =>
    (S.perm.getD (ch * S.c + l) 0, [rowValue x (S.sorted rows (ch * S.c + l))])

omit hrows hx [FusedMulAdd V] in
theorem Packed.firstRow_eq {ch : ℕ} (h : ch < divCeil rows.length S.c) :
    S.firstRow ch = ch * S.c := by
  have hfits := hS.fits ch h
  have hlt := strip_lt h
  rw [Nat.succ_mul] at hfits
  rw [firstRow, hS.nrows_eq]
  omega

/-- A chunk stores the values of its rows, whatever the accumulators held. -/
theorem chunkBody_eq {ch : ℕ} (hch : ch < divCeil rows.length S.c) {acc : List V}
    (hacc : S.live ch ≤ acc.length) : ∃ acc', acc'.length = acc.length ∧
      S.chunkBody x acc ch = some (acc', S.chunkStores rows x ch) := by
  obtain ⟨w, hw, hin, hwide⟩ := hS.wide ch hch
  have hlive : min (S.nrows - ch * S.c) S.c = S.live ch := Nat.min_comm _ _
  have hkmax : (S.base (ch + 1) - S.base ch) / S.c = w := by
    rw [hw, Nat.add_sub_cancel_left, Nat.mul_div_cancel _ hS.c_pos]
  have hle : S.base ch ≤ S.base (ch + 1) := by omega
  have hzero : acc.map (fun _ => (0 : V)) = (List.range acc.length).map (S.lanes rows x ch 0) := by
    apply List.ext_getElem (by simp)
    intro l hl hl'
    simp [lanes, partialValue, rowValue]
  have hstores : ((((List.range acc.length).map (S.lanes rows x ch w)).zipIdx.take
      (S.live ch)).mapM fun a => do
        let orig ← S.perm[ch * S.c + a.2]?
        some (orig, [a.1])) = some (S.chunkStores rows x ch) := by
    rw [mapM_some (g := fun a => (S.perm.getD (ch * S.c + a.2) 0, [a.1]))]
    · congr 1
      apply List.ext_getElem
      · simp [chunkStores, hacc]
      · intro l hl hl'
        have hl : l < S.live ch := by simpa [chunkStores] using hl'
        obtain ⟨hpos, hdiv, -⟩ := hS.lane_lt hl
        simp [chunkStores, lanes, hl, partialValue_of_le (hwide _ hpos hdiv)]
    · intro a ha
      have hlt : a.2 < S.live ch := by
        obtain ⟨l, hl, rfl⟩ := List.getElem_of_mem ha
        rw [List.length_take] at hl
        simp only [List.getElem_take, List.getElem_zipIdx]
        omega
      rw [hS.getElem?_perm (hS.lane_lt hlt).1]
      rfl
  refine ⟨(List.range acc.length).map (S.lanes rows x ch w), by simp, ?_⟩
  simp only [chunkBody, hS.getElem?_chunkPtr (Nat.le_of_lt hch), hS.getElem?_chunkPtr hch,
    hS.firstRow_eq hch, hlive, hkmax, hle, hzero, guard_true, Option.pure_def, Option.bind_eq_bind,
    Option.bind_some, chunk_lanes hS hrows hx hacc hw hin (Nat.le_refl w)]
  simp only [Option.bind_eq_bind] at hstores
  rw [hstores, Option.bind_some]

theorem chunks_foldlM {chunks : List ℕ} (hchunks : ∀ ch ∈ chunks, ch < divCeil rows.length S.c)
    {acc : List V} (stores : Stores V) (hacc : ∀ ch ∈ chunks, S.live ch ≤ acc.length) :
    ∃ acc', chunks.foldlM (fun (s : List V × Stores V) ch => do
      let chunk ← S.chunkBody x s.1 ch
      some (chunk.1, s.2 ++ chunk.2)) (acc, stores) =
      some (acc', stores ++ chunks.flatMap (S.chunkStores rows x)) := by
  induction chunks generalizing acc stores with
  | nil => exact ⟨acc, by simp⟩
  | cons ch chunks ih =>
    obtain ⟨acc', hlength, hbody⟩ := chunkBody_eq hS hrows hx (hchunks ch List.mem_cons_self)
      (hacc ch List.mem_cons_self)
    have hacc' : ∀ ch ∈ chunks, S.live ch ≤ acc'.length := by
      intro ch hch
      rw [hlength]
      exact hacc ch (List.mem_cons_of_mem _ hch)
    obtain ⟨acc'', hlater⟩ := ih (fun ch hch => hchunks ch (List.mem_cons_of_mem _ hch))
      (stores ++ S.chunkStores rows x ch) hacc'
    refine ⟨acc'', ?_⟩
    rw [List.foldlM_cons, hbody, List.flatMap_cons, ← List.append_assoc, ← hlater]
    rfl

theorem chunkLoop_eq {chunks : List ℕ} (hchunks : ∀ ch ∈ chunks, ch < divCeil rows.length S.c)
    {acc : List V} (hacc : ∀ ch ∈ chunks, S.live ch ≤ acc.length) :
    S.chunkLoop x acc chunks = some (chunks.flatMap (S.chunkStores rows x)) := by
  obtain ⟨acc', hfinal⟩ := chunks_foldlM hS hrows hx hchunks [] hacc
  rw [chunkLoop, hfinal]
  rfl

omit hrows hx [FusedMulAdd V] in
theorem Packed.nchunks_eq : S.nchunks = some (divCeil rows.length S.c) := by
  rw [nchunks, hS.chunkPtr_length, if_neg (Nat.succ_ne_zero _), Nat.add_sub_cancel]

omit hrows hx in
theorem all_chunks : (List.range (divCeil rows.length S.c)).flatMap (S.chunkStores rows x) =
    S.perm.map fun r => (r, [rowValue x (rowAt rows r)]) := by
  have hstrips := strips_cover_divCeil hS.c_pos rows.length
  have hperm : (List.range rows.length).map (fun pos => S.perm.getD pos 0) = S.perm := by
    apply List.ext_getElem (by simp [hS.perm_length])
    intro pos hpos hpos'
    simp [hpos']
  have hchunk (ch : ℕ) : S.chunkStores rows x ch =
      ((List.range (min S.c (rows.length - ch * S.c))).map (ch * S.c + ·)).map fun pos =>
        (S.perm.getD pos 0, [rowValue x (rowAt rows (S.perm.getD pos 0))]) := by
    rw [chunkStores, live, hS.nrows_eq, List.map_map]
    rfl
  rw [← List.flatMap_congr fun ch _ => (hchunk ch).symm, ← List.map_flatMap, hstrips]
  conv_rhs => rw [← hperm, List.map_map]
  rfl

omit hrows hx in
theorem fills_chunks {y : List V} (hy : y.length = rows.length) {stores : Option (Stores V)}
    (h : stores = some ((List.range (divCeil rows.length S.c)).flatMap (S.chunkStores rows x))) :
    Fills stores y (product rows x) := by
  rw [h, all_chunks hS]
  exact fills_cells hy hS.perm

theorem fills_spmvChunked {y : List V} (hy : y.length = rows.length) :
    Fills (S.spmvChunked x y) y (product rows x) := by
  apply fills_chunks hS hy
  have hx' : S.ncols = x.length := hS.ncols_eq.trans hx.symm
  have hy' : S.nrows = y.length := hS.nrows_eq.trans hy.symm
  simp only [spmvChunked, hS.nchunks_eq, hx', hy', guard_true, Option.pure_def,
    Option.bind_eq_bind, Option.bind_some]
  split
  case isTrue hnone => rw [hnone]; rfl
  case isFalse =>
    apply chunkLoop_eq hS hrows hx
    · exact fun ch hch => List.mem_range.mp hch
    · intro ch hch
      rw [List.length_replicate, live, hy']
      omega

omit hrows hx hS [FusedMulAdd V] in
/-- The workers' ranges advance and cover the chunks that are left. -/
theorem chunkRanges_eq {nchunks per lo : ℕ} (hper : 0 < per) (hmax : nchunks ≤ usizeMax)
    (hlo : lo ≤ nchunks) : ∃ ranges, chunkRanges nchunks per lo = some ranges ∧
      (∀ r ∈ ranges, lo ≤ r.1 ∧ r.1 < r.2 ∧ r.2 ≤ nchunks) ∧
      (ranges.flatMap fun r => List.range' r.1 (r.2 - r.1)) = List.range' lo (nchunks - lo) := by
  fun_induction chunkRanges nchunks per lo with
  | case1 lo hlt hnext ih =>
    obtain ⟨later, hlater, hbounds, hcover⟩ := ih (by omega)
    refine ⟨_, by rw [hlater]; rfl, ?_, ?_⟩
    · intro r hr
      obtain rfl | hr := List.mem_cons.mp hr
      · dsimp only
        omega
      · have := hbounds r hr
        omega
    · rw [List.flatMap_cons, hcover]
      exact range'_split (Nat.le_of_lt hnext) (Nat.min_le_right _ _)
  | case2 lo hlt hnext => omega
  | case3 lo hlt =>
    obtain rfl : lo = nchunks := by omega
    exact ⟨[], rfl, by simp, by simp⟩

theorem shardBody_eq {lo hi : ℕ} (hlo : lo < hi) (hhi : hi ≤ divCeil rows.length S.c) :
    S.shardBody x lo hi =
      some ((List.range' lo (hi - lo)).flatMap (S.chunkStores rows x)) := by
  have hfirst : S.firstRow lo ≤ S.firstRow hi := by
    have := Nat.mul_le_mul_right S.c (Nat.le_of_lt hlo)
    rw [firstRow, firstRow]
    omega
  rw [shardBody, if_neg (Nat.not_le.mpr hlo)]
  simp only [hfirst, guard_true, Option.pure_def, Option.bind_eq_bind, Option.bind_some]
  apply chunkLoop_eq hS hrows hx
  · intro ch hch
    rw [List.mem_range'_1] at hch
    omega
  · intro ch hch
    rw [List.mem_range'_1] at hch
    have := Nat.mul_le_mul_right S.c hch.1
    rw [List.length_replicate, live, hS.firstRow_eq (by omega)]
    omega

/-- The sharded product fills the output, whatever the number of threads, the
host and the order in which the workers finish. -/
theorem fills_spmvChunkedSharded {y : List V} (hy : y.length = rows.length) (finish : Completion)
    (host : Option ℕ+) (threads : ℕ) :
    Fills (S.spmvChunkedSharded finish host x y threads) y (product rows x) := by
  apply fills_chunks hS hy
  have hx' : S.ncols = x.length := hS.ncols_eq.trans hx.symm
  have hy' : S.nrows = y.length := hS.nrows_eq.trans hy.symm
  simp only [spmvChunkedSharded, hS.nchunks_eq, hx', hy', guard_true, Option.pure_def,
    Option.bind_eq_bind, Option.bind_some]
  split
  case isTrue hnone => rw [hnone]; rfl
  case isFalse hsome =>
    have hper := divCeil_pos (Nat.pos_of_ne_zero hsome)
      (boundedWorkerCount_pos host threads (divCeil rows.length S.c))
    obtain ⟨ranges, hranges, hbounds, hcover⟩ := chunkRanges_eq hper
      (Nat.le_of_succ_le hS.chunks_le) (Nat.zero_le _)
    have hjoin := @joinAll_eq _ (fun h => do
      let range ← ranges[h]?
      S.shardBody x range.1 range.2) (fun h => (ranges[h]?).elim [] fun r =>
        (List.range' r.1 (r.2 - r.1)).flatMap (S.chunkStores rows x)) finish
      (List.range ranges.length) (by
        intro h hh
        have hlt := List.mem_range.mp hh
        have hbound := hbounds _ (List.getElem_mem hlt)
        rw [List.getElem?_eq_getElem hlt]
        exact shardBody_eq hS hrows hx hbound.2.1 hbound.2.2)
    simp only [Option.bind_eq_bind] at hjoin
    rw [hranges, Option.bind_some, hjoin, Option.bind_some, map_range_elim, ← List.flatMap_def,
      ← List.flatMap_assoc, hcover, List.range_eq_range', Nat.sub_zero]

end Lanes

end Sell

end FrankenSim.Sparse
