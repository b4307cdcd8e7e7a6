import FrankenSim.Sparse.Tiles

/-!
# Parallel assembly

Every tile is sorted and summed by its own worker, and the results are laid out
in the order of the tiles. A coordinate lies in one tile, so its values meet in
the order in which they were staged, and the rows of a tile are counted where
the serial loop counts them.
-/
namespace FrankenSim.Sparse

open Library

structure TileOut (V : Type) where
  rowCounts : List ℕ
  colIdx : List ℕ
  vals : List V
  rowLo : ℕ

variable {V : Type}

/-- The slots of `row_ptr` that a tile fills. -/
def TileOut.writes (out : TileOut V) : List (ℕ × ℕ) :=
  out.rowCounts.zipIdx.map fun p => (out.rowLo + p.2 + 1, p.1)

namespace Coo

variable (A : Coo V)

def perRow : Option (List ℕ) := do
  let counts ← A.rows.foldlM (fun perRow r => modifyAt (r + 1) (· + 1) perRow)
    (List.replicate (A.nrows + 1) 0)
  some (runningSums 0 counts)

def usefulRows (perRow : List ℕ) : ℕ := (perRow.zip perRow.tail).countP fun w => w.1 ≠ w.2

/-- One pass over the triplets, which keeps their order within each tile. -/
def buckets (t : ℕ) (tileOfRow : List ℕ) : Option (List (List (Fin A.staged))) :=
  (List.finRange A.staged).foldlM (fun buckets i => do
    let tile ← tileOfRow[A.row i]?
    modifyAt tile (· ++ [i]) buckets) (List.replicate t [])

def spawned (buckets : List (List (Fin A.staged))) : List ℕ :=
  (buckets.zipIdx.filter fun b => !b.1.isEmpty).map Prod.snd

variable [Add V]

def assembleTile (idxs : List (Fin A.staged)) (rowLo rowHi : ℕ) : Option (TileOut V) := do
  let sums := A.sums (sortByKey A.key idxs)
  let rowCounts ← sums.foldlM (fun rowCounts e =>
    if rowLo ≤ e.row then modifyAt (e.row - rowLo) (· + 1) rowCounts else none)
    (List.replicate (rowHi - rowLo) 0)
  some ⟨rowCounts, sums.map Entry.col, sums.map Prod.snd, rowLo⟩

/-- Tiled assembly; `none` is a panic, in a worker, in an index or in the
validation of the parts. -/
def assembleParallel (finish : Completion) (host : Option ℕ+) (threads : ℕ) :
    Option (Csr V) := do
  let perRow ← A.perRow
  let t := boundedWorkerCount host threads (usefulRows perRow)
  let tileOfRow := tilesFrom t A.staged 0 perRow.tail
  let buckets ← A.buckets t tileOfRow
  let handles := A.spawned buckets
  let joined ← joinAll finish (fun tile => do
    let idxs ← buckets[tile]?
    let range ← ((List.range t).map (tileRange tileOfRow))[tile]?
    A.assembleTile idxs range.1 range.2) handles
  let outs ← (handles.zip joined).foldlM (fun outs h => modifyAt h.1 (fun _ => some h.2) outs)
    (List.replicate t none)
  let outs := outs.filterMap id
  let rowPtr ← (outs.flatMap TileOut.writes).foldlM
    (fun rowPtr w => modifyAt w.1 (fun _ => w.2) rowPtr) (List.replicate (A.nrows + 1) 0)
  Csr.fromParts A.nrows A.ncols (runningSums 0 rowPtr) (outs.flatMap TileOut.colIdx)
    (outs.flatMap TileOut.vals)

section Tiling

variable {A} {t : ℕ} (T : Tiling A.nrows t)

def bucket (τ : ℕ) : List (Fin A.staged) :=
  (List.finRange A.staged).filter fun i => T.tile (A.row i) = τ

def tileSums (τ : ℕ) : List (Entry V) := A.sums (sortByKey A.key (bucket T τ))

omit [Add V] in
theorem buckets_eq : A.buckets t T.tileOfRow = some ((List.range t).map (bucket T)) := by
  have hstep : (fun buckets i => do
      let tile ← T.tileOfRow[A.row i]?
      modifyAt tile (· ++ [i]) buckets) = fun buckets i =>
      modifyAt (T.tile (A.row i)) (· ++ [i]) buckets := by
    funext buckets i
    rw [T.getElem?_tileOfRow (A.row_lt_nrows i)]
    rfl
  unfold buckets
  rw [hstep, foldlM_modifyAt (fun i => T.tile (A.row i)) fun i b => b ++ [i]]
  · congr 1
    apply List.ext_getElem (by simp)
    intro τ hτ hτ'
    simp only [List.getElem_mapIdx, foldl_concat, List.getElem_replicate, List.nil_append,
      List.getElem_map, List.getElem_range, bucket]
  · intro i _
    rw [List.length_replicate]
    exact T.tile_lt (A.row_lt_nrows i)

theorem tile_of_mem_tileSums {τ : ℕ} {e : Entry V} (he : e ∈ tileSums T τ) : T.tile e.row = τ := by
  have hmem := (mem_keys_accumulate _ e.1).mp (List.mem_map_of_mem he)
  rw [List.map_map] at hmem
  obtain ⟨i, hi, hkey⟩ := List.mem_map.mp hmem
  rw [mem_sortByKey, bucket, List.mem_filter, decide_eq_true_eq] at hi
  rw [Entry.row, ← hkey]
  exact hi.2

/-- The tiles one after the other make up the whole. -/
theorem total_eq : A.total = (List.range t).flatMap (tileSums T) := by
  have horder : sortByKey A.key (List.finRange A.staged) =
      (List.range t).flatMap fun τ => sortByKey A.key (bucket T τ) := by
    have hmono : Monotone fun k : ℕ ×ₗ ℕ => T.tile (ofLex k).1 :=
      fun k l h => T.monotone_tile (Prod.Lex.monotone_fst k l h)
    symm
    exact @sortByKey_parts _ _ _ A.key _ hmono t _ fun i _ => T.tile_lt (A.row_lt_nrows i)
  rw [total, sums, horder, List.map_flatMap, accumulate_flatMap]
  · rfl
  · apply List.pairwise_lt_range.imp
    intro τ τ' hlt p hp q hq heq
    obtain ⟨i, hi, rfl⟩ := List.mem_map.mp hp
    obtain ⟨j, hj, rfl⟩ := List.mem_map.mp hq
    rw [mem_sortByKey, bucket, List.mem_filter, decide_eq_true_eq] at hi hj
    have hrow : A.row i = A.row j := congrArg (fun k => (ofLex k).1) heq
    rw [hrow, hj.2] at hi
    omega

theorem rowOf_total {r : ℕ} (hr : r < A.nrows) :
    rowOf A.total r = rowOf (tileSums T (T.tile r)) r := by
  unfold rowOf
  congr 1
  rw [total_eq T, List.filter_flatMap]
  apply flatMap_range_single (T.tile_lt hr)
  intro τ hτ
  rw [List.filter_eq_nil_iff]
  intro e he
  rw [decide_eq_true_eq]
  rintro rfl
  exact hτ (tile_of_mem_tileSums T he).symm

def tileOut (τ : ℕ) : TileOut V where
  rowCounts := (List.range (T.hi τ - T.lo τ)).map fun dr => (rowOf (tileSums T τ) (T.lo τ + dr)).length
  colIdx := (tileSums T τ).map Entry.col
  vals := (tileSums T τ).map Prod.snd
  rowLo := T.lo τ

theorem assembleTile_eq (τ : ℕ) :
    A.assembleTile (bucket T τ) (T.lo τ) (T.hi τ) = some (tileOut T τ) := by
  have hrange : ∀ e ∈ tileSums T τ, T.lo τ ≤ e.row ∧ e.row < T.hi τ := by
    intro e he
    exact T.mem_range.mpr ⟨(sorted_sums (sorted_sortByKey _ _)).row_lt e he, tile_of_mem_tileSums T he⟩
  have hcounts : (tileSums T τ).foldlM (fun rowCounts e =>
      if T.lo τ ≤ e.row then modifyAt (e.row - T.lo τ) (· + 1) rowCounts else none)
      (List.replicate (T.hi τ - T.lo τ) 0) = some (tileOut T τ).rowCounts := by
    rw [foldlM_congr fun e he rowCounts => if_pos (hrange e he).1,
      foldlM_modifyAt (fun e : Entry V => e.row - T.lo τ) fun _ n => n + 1]
    · congr 1
      apply List.ext_getElem (by simp [tileOut])
      intro dr hdr hdr'
      simp only [List.getElem_mapIdx, foldl_succ, List.getElem_replicate, tileOut,
        List.getElem_map, List.getElem_range, rowOf, List.length_map, Nat.zero_add]
      congr 1
      apply List.filter_congr
      intro e he
      have := hrange e he
      simp only [decide_eq_decide]
      omega
    · intro e he
      have := hrange e he
      rw [List.length_replicate]
      omega
  change (tileSums T τ).foldlM _ _ >>= _ = _
  rw [hcounts]
  rfl

def occupied : List ℕ := (List.range t).filter fun τ => !(bucket T τ).isEmpty

variable {T}

omit [Add V] in
theorem mem_occupied {τ : ℕ} : τ ∈ occupied T ↔ τ < t ∧ bucket T τ ≠ [] := by
  simp [occupied]

omit [Add V] in
theorem spawned_eq : A.spawned ((List.range t).map (bucket T)) = occupied T := by
  have hzip : ((List.range t).map (bucket T)).zipIdx =
      (List.range t).map fun τ => (bucket T τ, τ) := by
    apply List.ext_getElem (by simp)
    intro τ hτ hτ'
    simp
  rw [spawned, hzip, List.filter_map, List.map_map]
  exact List.map_id _

theorem tileSums_of_not_occupied {τ : ℕ} (h : ¬ !(bucket T τ).isEmpty) : tileSums T τ = [] := by
  have hnil : bucket T τ = [] := by simpa using h
  rw [tileSums, hnil]
  rfl

theorem join_eq (finish : Completion) :
    joinAll finish (fun tile => do
      let idxs ← ((List.range t).map (bucket T))[tile]?
      let range ← ((List.range t).map (tileRange T.tileOfRow))[tile]?
      A.assembleTile idxs range.1 range.2) (occupied T) =
      some ((occupied T).map (tileOut T)) := by
  apply joinAll_eq
  intro τ hτ
  have hlt := (mem_occupied.mp hτ).1
  rw [List.getElem?_map, List.getElem?_map, List.getElem?_range hlt]
  exact assembleTile_eq T τ

/-- The slots of the tiles, filled where there was a worker. -/
theorem outs_eq :
    ((occupied T).zip ((occupied T).map (tileOut T))).foldlM
      (fun outs h => modifyAt h.1 (fun _ => some h.2) outs) (List.replicate t none) =
      some ((List.range t).map fun τ =>
        if !(bucket T τ).isEmpty then some (tileOut T τ) else none) := by
  have hzip : (occupied T).zip ((occupied T).map (tileOut T)) =
      (occupied T).map fun τ => (τ, tileOut T τ) := by
    simpa using @List.zip_map' _ _ _ id (tileOut T) (occupied T)
  rw [hzip, List.foldlM_map, foldlM_modifyAt (fun τ => τ) fun τ _ => some (tileOut T τ)]
  · congr 1
    apply List.ext_getElem (by simp)
    intro τ hτ hτ'
    have hlt : τ < t := by simpa using hτ'
    rw [List.getElem_mapIdx, List.getElem_map, List.getElem_range, List.getElem_replicate]
    apply foldl_overwrite
    · intro σ hσ
      rw [List.mem_filter, decide_eq_true_eq] at hσ
      obtain ⟨hmem, rfl⟩ := hσ
      rw [if_pos (List.mem_filter.mp hmem).2]
    · intro hnil
      symm
      apply if_neg
      intro hocc
      have hmem : τ ∈ (occupied T).filter fun σ => σ = τ := by
        rw [List.mem_filter]
        exact ⟨List.mem_filter.mpr ⟨List.mem_range.mpr hlt, hocc⟩, by simp⟩
      rw [hnil] at hmem
      exact List.not_mem_nil hmem
  · intro τ hτ
    rw [List.length_replicate]
    exact (mem_occupied.mp hτ).1

theorem flatten_outs :
    ((List.range t).map fun τ =>
      if !(bucket T τ).isEmpty then some (tileOut T τ) else none).filterMap id =
      (occupied T).map (tileOut T) :=
  filterMap_ite _

theorem writes_tileOut (τ : ℕ) : (tileOut T τ).writes =
    (List.range (T.hi τ - T.lo τ)).map fun dr =>
      (T.lo τ + dr + 1, (rowOf (tileSums T τ) (T.lo τ + dr)).length) := by
  apply List.ext_getElem (by simp [TileOut.writes, tileOut])
  intro dr hdr hdr'
  simp [TileOut.writes, tileOut]

theorem mem_writes {τ : ℕ} {w : ℕ × ℕ} (hw : w ∈ (tileOut T τ).writes) :
    ∃ r < A.nrows, w = (r + 1, (rowOf A.total r).length) := by
  rw [writes_tileOut] at hw
  obtain ⟨dr, hdr, rfl⟩ := List.mem_map.mp hw
  have hdr := List.mem_range.mp hdr
  obtain ⟨hr, htile⟩ := T.mem_range.mp ⟨Nat.le_add_right (T.lo τ) dr, by omega⟩
  exact ⟨_, hr, by rw [rowOf_total T hr, htile]⟩

theorem write_mem {r : ℕ} (hr : r < A.nrows) :
    (r + 1, (rowOf A.total r).length) ∈ (tileOut T (T.tile r)).writes := by
  have hrange := T.mem_range.mpr ⟨hr, rfl⟩
  rw [writes_tileOut]
  apply List.mem_map.mpr
  refine ⟨r - T.lo (T.tile r), List.mem_range.mpr (by omega), ?_⟩
  rw [rowOf_total T hr, Nat.add_sub_cancel' hrange.1]

theorem rowPtr_eq :
    (((occupied T).map (tileOut T)).flatMap TileOut.writes).foldlM
      (fun rowPtr w => modifyAt w.1 (fun _ => w.2) rowPtr) (List.replicate (A.nrows + 1) 0) =
      some (0 :: (List.range A.nrows).map fun r => (rowOf A.total r).length) := by
  rw [foldlM_modifyAt Prod.fst fun w _ => w.2]
  · congr 1
    apply List.ext_getElem (by simp)
    intro i hi hi'
    rw [List.getElem_mapIdx, List.getElem_replicate]
    apply foldl_overwrite
    · intro w hw
      simp only [List.mem_filter, decide_eq_true_eq, List.mem_flatMap, List.mem_map] at hw
      obtain ⟨⟨out, ⟨τ, -, rfl⟩, hw⟩, rfl⟩ := hw
      obtain ⟨r, hr, rfl⟩ := mem_writes hw
      simp
    · intro hnil
      cases i with
      | zero => rfl
      | succ r =>
        have hr : r < A.nrows := by simpa using hi'
        simp only [List.getElem_cons_succ, List.getElem_map, List.getElem_range]
        symm
        rw [List.length_eq_zero_iff, rowOf_total T hr]
        by_contra hne
        have hocc : T.tile r ∈ occupied T := by
          rw [mem_occupied]
          refine ⟨T.tile_lt hr, ?_⟩
          intro hempty
          apply hne
          rw [tileSums, hempty]
          rfl
        have hmem := List.mem_flatMap.mpr ⟨_, List.mem_map_of_mem hocc, @write_mem _ _ _ _ T _ hr⟩
        rw [List.filter_eq_nil_iff] at hnil
        exact hnil _ hmem (by simp)
  · intro w hw
    simp only [List.mem_flatMap, List.mem_map] at hw
    obtain ⟨out, ⟨τ, -, rfl⟩, hw⟩ := hw
    obtain ⟨r, hr, rfl⟩ := mem_writes hw
    simpa using hr

theorem flatMap_occupied {α : Type} (f : Entry V → α) :
    ((occupied T).flatMap fun τ => (tileSums T τ).map f) = A.total.map f := by
  rw [occupied, flatMap_filter_of_nil, total_eq T, List.map_flatMap]
  intro τ _ hempty
  rw [tileSums_of_not_occupied hempty, List.map_nil]

end Tiling

variable {A}

omit [Add V] in
theorem perRow_eq : ∃ filled, A.perRow = some (0 :: filled) ∧ filled.length = A.nrows := by
  have hlt : ∀ r ∈ A.rows, r + 1 < (List.replicate (A.nrows + 1) 0).length := by
    intro r hr
    rw [List.length_replicate]
    exact Nat.succ_lt_succ (A.row_lt r hr)
  unfold perRow
  rw [foldlM_modifyAt (fun r => r + 1) (fun _ n => n + 1) hlt, List.replicate_succ,
    List.mapIdx_cons, foldl_succ, List.filter_eq_nil_iff.mpr (by simp), List.length_nil]
  refine ⟨_, rfl, ?_⟩
  rw [length_runningSums, List.length_mapIdx, List.length_replicate]

/-- Parallel assembly returns the matrix that serial assembly returns, whatever
the number of threads, the host and the order in which the workers finish. -/
theorem assembleParallel_eq_assemble (A : Coo V) : ∃ C, A.assemble = some C ∧
    ∀ (finish : Completion) (host : Option ℕ+) (threads : ℕ),
      A.assembleParallel finish host threads = some C := by
  refine ⟨A.assembled, A.assemble_eq, ?_⟩
  intro finish host threads
  obtain ⟨filled, hperRow, hlength⟩ := @perRow_eq _ A
  have hpos := boundedWorkerCount_pos host threads (usefulRows (0 :: filled))
  let T := Tiling.balanced hpos A.staged hlength
  have htiles : tilesFrom (boundedWorkerCount host threads (usefulRows (0 :: filled))) A.staged 0
      filled = T.tileOfRow := rfl
  unfold assembleParallel
  simp only [hperRow, Option.bind_eq_bind, Option.bind_some, List.tail_cons, htiles, buckets_eq T,
    spawned_eq]
  have hjoin := @join_eq _ A _ _ T finish
  simp only [Option.bind_eq_bind] at hjoin
  rw [hjoin, Option.bind_some, outs_eq, Option.bind_some, flatten_outs, rowPtr_eq,
    Option.bind_some, List.flatMap_map, List.flatMap_map]
  simp only [tileOut]
  rw [flatMap_occupied, flatMap_occupied, A.fromParts_assembled]

end Coo

end FrankenSim.Sparse
