import FrankenSim.Sparse.Sell

/-!
# The layout of sliced rows

What a successful conversion guarantees, as far as the kernels rely on it, and
that the conversion of a canonical matrix never indexes out of range.
-/
namespace FrankenSim.Sparse

open Library

namespace Sell

variable {V : Type}

def base (S : Sell V) (ch : ℕ) : ℕ := S.chunkPtr.getD ch 0

def slot (S : Sell V) (pos k : ℕ) : ℕ := S.base (pos / S.c) + k * S.c + pos % S.c

def sorted (S : Sell V) (rows : List (List (ℕ × V))) (pos : ℕ) : List (ℕ × V) :=
  rowAt rows (S.perm.getD pos 0)

structure Packed (S : Sell V) (ncols : ℕ) (rows : List (List (ℕ × V))) : Prop where
  c_pos : 0 < S.c
  nrows_eq : S.nrows = rows.length
  ncols_eq : S.ncols = ncols
  perm : S.perm.Perm (List.range rows.length)
  rowLen_eq : S.rowLen = S.perm.map fun r => (rowAt rows r).length
  chunkPtr_length : S.chunkPtr.length = divCeil rows.length S.c + 1
  chunks_le : divCeil rows.length S.c + 1 ≤ usizeMax
  fits : ∀ ch < divCeil rows.length S.c, (ch + 1) * S.c ≤ usizeMax
  vals_length : S.vals.length = S.colIdx.length
  wide : ∀ ch < divCeil rows.length S.c, ∃ w, S.base (ch + 1) = S.base ch + w * S.c ∧
    S.base (ch + 1) ≤ S.colIdx.length ∧
    ∀ pos < rows.length, pos / S.c = ch → (S.sorted rows pos).length ≤ w
  colIdx_slot : ∀ pos < rows.length, ∀ k p, (S.sorted rows pos)[k]? = some p →
    S.colIdx[S.slot pos k]? = some p.1
  vals_slot : ∀ pos < rows.length, ∀ k p, (S.sorted rows pos)[k]? = some p →
    S.vals[S.slot pos k]? = some p.2

/-- The conversion ends in a refusal or a result, never in a panic. -/
abbrev Sound {α : Type} (Q : α → Prop) : Except SellFailure α → Prop :=
  Within (· ≠ SellFailure.panic) Q

theorem sound_add (operation : String) (lhs rhs : ℕ) :
    Sound (fun n => n = lhs + rhs ∧ n ≤ usizeMax) (checkedGeometryAdd operation lhs rhs) := by
  unfold checkedGeometryAdd
  split
  case isTrue h => exact Within.ok ⟨rfl, h⟩
  case isFalse => exact Within.error (by simp)

theorem sound_mul (operation : String) (lhs rhs : ℕ) :
    Sound (fun n => n = lhs * rhs ∧ n ≤ usizeMax) (checkedGeometryMul operation lhs rhs) := by
  unfold checkedGeometryMul
  split
  case isTrue h => exact Within.ok ⟨rfl, h⟩
  case isFalse => exact Within.error (by simp)

theorem sound_orPanic {α : Type} {o : Option α} {a : α} (h : o = some a) :
    Sound (· = a) (orPanic o) := by
  rw [h]
  exact Within.ok rfl

section Conversion

variable {ncols : ℕ} {rows : List (List (ℕ × V))}

theorem rowLength_ofRows {r : ℕ} (h : r < rows.length) :
    rowLength (Csr.ofRows ncols rows) r = some (rowAt rows r).length := by
  rw [rowLength, row_rowAt h, Option.map_some, List.length_map]

theorem sortWindows_perm (A : Csr V) {sigma : ℕ} (h : 0 < sigma) :
    (sortWindows A sigma).Perm (List.range A.nrows) := by
  rw [← strips_cover_divCeil h A.nrows]
  exact List.Perm.flatMap_left _ fun w _ => sortByKey_perm _ _

def chunkWidth (c nrows : ℕ) (rowLen : List ℕ) (ch : ℕ) : ℕ :=
  ((List.range' (ch * c) (min ((ch + 1) * c) nrows - ch * c)).map (rowLen.getD · 0)).max?.getD 0

/-- Where a chunk starts when the chunks before it have these widths. -/
def chunkBase (c : ℕ) (width : ℕ → ℕ) (ch : ℕ) : ℕ := ((List.range ch).map (width · * c)).sum

theorem chunkBase_succ (c : ℕ) (width : ℕ → ℕ) (ch : ℕ) :
    chunkBase c width (ch + 1) = chunkBase c width ch + width ch * c := by
  rw [chunkBase, List.range_succ, List.map_append, List.sum_append, List.map_singleton,
    List.sum_singleton]
  rfl

theorem chunkBase_mono (c : ℕ) (width : ℕ → ℕ) : Monotone (chunkBase c width) := by
  apply monotone_nat_of_le_succ
  intro ch
  rw [chunkBase_succ]
  exact Nat.le_add_right _ _

theorem le_chunkWidth {c nrows pos : ℕ} {rowLen : List ℕ} (hc : 0 < c) (hpos : pos < nrows) :
    rowLen.getD pos 0 ≤ chunkWidth c nrows rowLen (pos / c) := by
  have hdiv := Nat.div_add_mod pos c
  have hmod := Nat.mod_lt pos hc
  rw [Nat.mul_comm] at hdiv
  have hmem : rowLen.getD pos 0 ∈ (List.range' (pos / c * c)
      (min ((pos / c + 1) * c) nrows - pos / c * c)).map (rowLen.getD · 0) := by
    apply List.mem_map_of_mem
    rw [List.mem_range'_1, Nat.succ_mul]
    omega
  exact List.le_max?_getD_of_mem hmem

theorem sound_pushChunk {c nrows ch : ℕ} {rowLen : List ℕ} (hlen : rowLen.length = nrows) :
    Sound (fun chunkPtr => chunkPtr =
        (List.range (ch + 2)).map (chunkBase c (chunkWidth c nrows rowLen)) ∧
        (ch + 1) * c ≤ usizeMax)
      (pushChunk c nrows rowLen
        ((List.range (ch + 1)).map (chunkBase c (chunkWidth c nrows rowLen))) ch) := by
  unfold pushChunk
  apply (sound_mul _ _ _).bind
  rintro row0 ⟨rfl, -⟩
  apply (sound_add _ _ _).bind
  rintro nextChunk ⟨rfl, -⟩
  apply (sound_mul _ _ _).bind
  rintro row1 ⟨rfl, hfits⟩
  have hlens : (List.range' (ch * c) (min ((ch + 1) * c) nrows - ch * c)).mapM
      (fun p => rowLen[p]?) =
      some ((List.range' (ch * c) (min ((ch + 1) * c) nrows - ch * c)).map (rowLen.getD · 0)) := by
    apply mapM_some
    intro p hp
    rw [List.mem_range'_1] at hp
    rw [List.getD_eq_getElem?_getD, List.getElem?_eq_getElem (by omega), Option.getD_some]
  apply (sound_orPanic hlens).bind
  rintro lens rfl
  apply (sound_mul _ _ _).bind
  rintro chunkSlots ⟨rfl, -⟩
  apply (sound_orPanic (a := chunkBase c (chunkWidth c nrows rowLen) ch) (by simp)).bind
  rintro base rfl
  apply (sound_add _ _ _).bind
  rintro stop ⟨rfl, -⟩
  apply Within.ok
  refine ⟨?_, hfits⟩
  rw [List.range_succ (n := ch + 1), List.map_append, List.map_singleton, chunkBase_succ]
  rfl

/-- The table of chunk starts, filled chunk by chunk. -/
theorem sound_chunkTable {c nrows : ℕ} {rowLen : List ℕ} (hlen : rowLen.length = nrows)
    (nchunks : ℕ) :
    Sound (fun chunkPtr => chunkPtr =
        (List.range (nchunks + 1)).map (chunkBase c (chunkWidth c nrows rowLen)) ∧
        ∀ ch < nchunks, (ch + 1) * c ≤ usizeMax)
      ((List.range nchunks).foldlM (pushChunk c nrows rowLen) [0]) := by
  apply @Within.range_foldlM _ _ _ _ (fun ch chunkPtr => chunkPtr =
    (List.range (ch + 1)).map (chunkBase c (chunkWidth c nrows rowLen)) ∧
      ∀ i < ch, (i + 1) * c ≤ usizeMax)
  · exact ⟨rfl, fun i hi => absurd hi (Nat.not_lt_zero i)⟩
  · rintro ch - _ ⟨rfl, hfits⟩
    apply (sound_pushChunk hlen).imp
    rintro chunkPtr ⟨rfl, hfit⟩
    refine ⟨rfl, ?_⟩
    intro i hi
    obtain hi | rfl := Nat.lt_succ_iff_lt_or_eq.mp hi
    · exact hfits i hi
    · exact hfit

/-- The slot of entry `k` at a sorted position, for chunks of these widths. -/
def slotAt (c : ℕ) (width : ℕ → ℕ) (pos k : ℕ) : ℕ :=
  chunkBase c width (pos / c) + k * c + pos % c

section Slots

variable {c : ℕ} {width : ℕ → ℕ}

theorem slotAt_lt (hc : 0 < c) {pos k : ℕ} (hk : k < width (pos / c)) :
    slotAt c width pos k < chunkBase c width (pos / c + 1) := by
  have hmod := Nat.mod_lt pos hc
  have hwidth : (k + 1) * c ≤ width (pos / c) * c := Nat.mul_le_mul_right c hk
  rw [Nat.succ_mul] at hwidth
  rw [slotAt, chunkBase_succ]
  omega

theorem slotAt_injective (hc : 0 < c) {pos k pos' k' : ℕ} (hk : k < width (pos / c))
    (hk' : k' < width (pos' / c)) (h : slotAt c width pos k = slotAt c width pos' k') :
    pos = pos' ∧ k = k' := by
  have hchunk : pos / c = pos' / c := by
    obtain hlt | heq | hlt := Nat.lt_trichotomy (pos / c) (pos' / c)
    · have hle : chunkBase c width (pos / c + 1) ≤ chunkBase c width (pos' / c) :=
        chunkBase_mono c width hlt
      have hbefore := slotAt_lt hc hk
      rw [h, slotAt] at hbefore
      omega
    · exact heq
    · have hle : chunkBase c width (pos' / c + 1) ≤ chunkBase c width (pos / c) :=
        chunkBase_mono c width hlt
      have hbefore := slotAt_lt hc hk'
      rw [← h, slotAt] at hbefore
      omega
  have hmod := Nat.mod_lt pos hc
  have hmod' := Nat.mod_lt pos' hc
  rw [slotAt, slotAt, hchunk, Nat.add_assoc, Nat.add_assoc, Nat.add_left_cancel_iff] at h
  have hdiv := congrArg (· / c) h
  have hrem := congrArg (· % c) h
  simp only [Nat.mul_comm _ c, Nat.mul_add_div hc, Nat.div_eq_of_lt hmod, Nat.div_eq_of_lt hmod',
    Nat.add_zero, Nat.mul_add_mod, Nat.mod_eq_of_lt hmod, Nat.mod_eq_of_lt hmod'] at hdiv hrem
  refine ⟨?_, hdiv⟩
  rw [← Nat.div_add_mod pos c, ← Nat.div_add_mod pos' c, hchunk, hrem]

theorem sound_slotOf {nchunks pos k : ℕ} (hpos : pos / c ≤ nchunks) :
    Sound (· = slotAt c width pos k)
      (slotOf c ((List.range (nchunks + 1)).map (chunkBase c width)) pos k) := by
  unfold slotOf
  apply (sound_mul _ _ _).bind
  rintro stride ⟨rfl, -⟩
  apply (sound_orPanic (a := chunkBase c width (pos / c))
    (by simp [List.getElem?_range (Nat.lt_succ_of_le hpos)])).bind
  rintro base rfl
  apply (sound_add _ _ _).bind
  rintro slot ⟨rfl, -⟩
  exact (sound_add _ _ _).imp fun n h => h.1

def slotsOf (c : ℕ) (width : ℕ → ℕ) (row : List (ℕ × V)) (pos : ℕ) : List (ℕ × ℕ × V) :=
  row.zipIdx.map fun e => (slotAt c width pos e.2, e.1)

theorem sound_rowSlots {nchunks pos orig : ℕ} (hpos : pos / c ≤ nchunks)
    (horig : orig < rows.length) :
    Sound (· = slotsOf c width (rowAt rows orig) pos)
      (rowSlots (Csr.ofRows ncols rows) c ((List.range (nchunks + 1)).map (chunkBase c width))
        pos orig) := by
  unfold rowSlots
  apply (sound_orPanic (row_rowAt horig)).bind
  rintro row rfl
  rw [zip_map_fst_snd]
  apply Within.mapM_eq
  intro e _
  apply (sound_slotOf hpos).bind
  rintro slot rfl
  exact Within.ok rfl

def allSlots (c : ℕ) (width : ℕ → ℕ) (rows : List (List (ℕ × V))) (perm : List ℕ) :
    List (ℕ × ℕ × V) :=
  (perm.zipIdx.map fun p => slotsOf c width (rowAt rows p.1) p.2).flatten

theorem mem_allSlots {perm : List ℕ} {w : ℕ × ℕ × V} : w ∈ allSlots c width rows perm ↔
    ∃ pos orig k p, perm[pos]? = some orig ∧ (rowAt rows orig)[k]? = some p ∧
      w = (slotAt c width pos k, p) := by
  simp only [allSlots, slotsOf, List.mem_flatten, List.mem_map]
  constructor
  · rintro ⟨-, ⟨q, hq, rfl⟩, hw⟩
    obtain ⟨e, he, rfl⟩ := List.mem_map.mp hw
    exact ⟨q.2, q.1, e.2, e.1, List.mem_zipIdx_iff_getElem?.mp hq,
      List.mem_zipIdx_iff_getElem?.mp he, rfl⟩
  · rintro ⟨pos, orig, k, p, hperm, hrow, rfl⟩
    refine ⟨_, ⟨(orig, pos), List.mem_zipIdx_iff_getElem?.mpr hperm, rfl⟩, ?_⟩
    exact List.mem_map.mpr ⟨(p, k), List.mem_zipIdx_iff_getElem?.mpr hrow, rfl⟩

theorem sound_permSlots {perm : List ℕ} {nchunks : ℕ}
    (hchunk : ∀ pos < perm.length, pos / c < nchunks) (hlt : ∀ orig ∈ perm, orig < rows.length) :
    Sound (· = perm.zipIdx.map fun p => slotsOf c width (rowAt rows p.1) p.2)
      (perm.zipIdx.mapM fun p => rowSlots (Csr.ofRows ncols rows) c
        ((List.range (nchunks + 1)).map (chunkBase c width)) p.2 p.1) := by
  apply Within.mapM_eq
  intro p hp
  have hp := List.mem_zipIdx_iff_getElem?.mp hp
  have hpos := (List.getElem?_eq_some_iff.mp hp).1
  exact sound_rowSlots (Nat.le_of_lt (hchunk p.2 hpos)) (hlt p.1 (List.mem_of_getElem? hp))

theorem fill_slots {W : Type} {perm : List ℕ} (hc : 0 < c)
    (hwidth : ∀ pos orig, perm[pos]? = some orig → (rowAt rows orig).length ≤ width (pos / c))
    {nchunks : ℕ} (hchunks : ∀ pos < perm.length, pos / c < nchunks) (f : ℕ × V → W) (zero : W) :
    ∃ cells, (allSlots c width rows perm).foldlM (fun cells s => modifyAt s.1 (fun _ => f s.2) cells)
        (List.replicate (chunkBase c width nchunks) zero) = some cells ∧
      cells.length = chunkBase c width nchunks ∧
      ∀ pos orig k p, perm[pos]? = some orig → (rowAt rows orig)[k]? = some p →
        cells[slotAt c width pos k]? = some (f p) := by
  have hslot : ∀ pos orig k p, perm[pos]? = some orig → (rowAt rows orig)[k]? = some p →
      k < width (pos / c) ∧ slotAt c width pos k < chunkBase c width nchunks := by
    intro pos orig k p hperm hrow
    have hk := (List.getElem?_eq_some_iff.mp hrow).1
    have hk' : k < width (pos / c) := Nat.lt_of_lt_of_le hk (hwidth pos orig hperm)
    have hpos := (List.getElem?_eq_some_iff.mp hperm).1
    exact ⟨hk', Nat.lt_of_lt_of_le (slotAt_lt hc hk') (chunkBase_mono c width (hchunks pos hpos))⟩
  refine ⟨_, foldlM_modifyAt Prod.fst (fun s _ => f s.2) ?_, by simp, ?_⟩
  · intro s hs
    obtain ⟨pos, orig, k, p, hperm, hrow, rfl⟩ := mem_allSlots.mp hs
    rw [List.length_replicate]
    exact (hslot pos orig k p hperm hrow).2
  · intro pos orig k p hperm hrow
    obtain ⟨hk, hlt⟩ := hslot pos orig k p hperm hrow
    rw [List.getElem?_eq_getElem (by simpa using hlt), List.getElem_mapIdx, Option.some.injEq]
    apply foldl_overwrite
    · intro s hs
      rw [List.mem_filter, decide_eq_true_eq] at hs
      obtain ⟨pos', orig', k', p', hperm', hrow', rfl⟩ := mem_allSlots.mp hs.1
      obtain ⟨rfl, rfl⟩ := slotAt_injective hc (hslot pos' orig' k' p' hperm' hrow').1 hk hs.2
      rw [hperm, Option.some.injEq] at hperm'
      rw [← hperm', hrow, Option.some.injEq] at hrow'
      rw [hrow']
    · intro hnil
      have hmem : (slotAt c width pos k, p) ∈
          (allSlots c width rows perm).filter fun s => s.1 = slotAt c width pos k := by
        rw [List.mem_filter]
        exact ⟨mem_allSlots.mpr ⟨pos, orig, k, p, hperm, hrow, rfl⟩, by simp⟩
      rw [hnil] at hmem
      exact absurd hmem List.not_mem_nil

/-- Chunks of these widths whose slots hold the entries of the sorted rows are packed. -/
theorem Packed.of_slots {S : Sell V} (hc : 0 < S.c) (hnrows : S.nrows = rows.length)
    (hperm : S.perm.Perm (List.range rows.length))
    (hrowLen : S.rowLen = S.perm.map fun r => (rowAt rows r).length)
    (hchunkPtr : S.chunkPtr =
      (List.range (divCeil rows.length S.c + 1)).map (chunkBase S.c width))
    (hchunks : divCeil rows.length S.c + 1 ≤ usizeMax)
    (hfits : ∀ ch < divCeil rows.length S.c, (ch + 1) * S.c ≤ usizeMax)
    (hcollen : S.colIdx.length = chunkBase S.c width (divCeil rows.length S.c))
    (hvallen : S.vals.length = chunkBase S.c width (divCeil rows.length S.c))
    (hwidth : ∀ pos orig, S.perm[pos]? = some orig → (rowAt rows orig).length ≤ width (pos / S.c))
    (hcol : ∀ pos orig k p, S.perm[pos]? = some orig → (rowAt rows orig)[k]? = some p →
      S.colIdx[slotAt S.c width pos k]? = some p.1)
    (hval : ∀ pos orig k p, S.perm[pos]? = some orig → (rowAt rows orig)[k]? = some p →
      S.vals[slotAt S.c width pos k]? = some p.2) :
    Packed S S.ncols rows := by
  have hbase : ∀ ch ≤ divCeil rows.length S.c, S.base ch = chunkBase S.c width ch := by
    intro ch hch
    rw [base, hchunkPtr, List.getD_eq_getElem?_getD, List.getElem?_map,
      List.getElem?_range (Nat.lt_succ_of_le hch)]
    rfl
  have hlength : S.perm.length = rows.length := by rw [hperm.length_eq, List.length_range]
  have hsorted : ∀ pos < rows.length, S.perm[pos]? = some (S.perm.getD pos 0) := by
    intro pos hpos
    rw [List.getD_eq_getElem?_getD, List.getElem?_eq_getElem (hlength.symm ▸ hpos),
      Option.getD_some]
  have hslot : ∀ pos < rows.length, ∀ k, S.slot pos k = slotAt S.c width pos k := by
    intro pos hpos k
    rw [slot, hbase _ (Nat.le_of_lt (div_lt_divCeil hc hpos)), slotAt]
  constructor
  case c_pos => exact hc
  case nrows_eq => exact hnrows
  case ncols_eq => rfl
  case perm => exact hperm
  case rowLen_eq => exact hrowLen
  case chunkPtr_length => rw [hchunkPtr, List.length_map, List.length_range]
  case chunks_le => exact hchunks
  case fits => exact hfits
  case vals_length => exact hvallen.trans hcollen.symm
  case wide =>
    intro ch hch
    refine ⟨width ch, ?_, ?_, ?_⟩
    · rw [hbase ch (Nat.le_of_lt hch), hbase (ch + 1) hch, chunkBase_succ]
    · rw [hbase (ch + 1) hch, hcollen]
      exact chunkBase_mono S.c width hch
    · rintro pos hpos rfl
      exact hwidth pos _ (hsorted pos hpos)
  case colIdx_slot =>
    intro pos hpos k p hp
    rw [hslot pos hpos]
    exact hcol pos _ k p (hsorted pos hpos) hp
  case vals_slot =>
    intro pos hpos k p hp
    rw [hslot pos hpos]
    exact hval pos _ k p (hsorted pos hpos) hp

end Slots

/-- The conversion of rows with ascending columns in range packs them or refuses. -/
theorem sound_fromCsr [Zero V] {c sigma : ℕ} :
    Sound (fun S => Packed S ncols rows) (fromCsr (Csr.ofRows ncols rows) c sigma) := by
  let n := rows.length
  unfold fromCsr
  split
  case isTrue => exact Within.error (by simp)
  case isFalse hzero =>
    have hc : 0 < c := Nat.pos_of_ne_zero hzero
    apply (sound_mul _ _ _).bind
    rintro sigma' ⟨rfl, -⟩
    have hsigma : 0 < divCeil (max sigma c) c * c := by
      have := le_divCeil_mul hc (max sigma c)
      omega
    let perm := sortWindows (Csr.ofRows ncols rows) (divCeil (max sigma c) c * c)
    have hperm : perm.Perm (List.range n) := sortWindows_perm _ hsigma
    have hlength : perm.length = n := by rw [hperm.length_eq, List.length_range]
    have hlt : ∀ orig ∈ perm, orig < n := fun orig h => List.mem_range.mp (hperm.mem_iff.mp h)
    let rowLen := perm.map fun r => (rowAt rows r).length
    apply (sound_orPanic (mapM_some fun r hr => rowLength_ofRows (hlt r hr))).bind
    rintro rowLen' rfl
    apply (sound_add _ _ _).bind
    rintro _ ⟨rfl, hchunks⟩
    let width := chunkWidth c n rowLen
    have hrowLen : rowLen.length = n := by rw [List.length_map, hlength]
    apply (sound_chunkTable hrowLen (divCeil n c)).bind
    rintro _ ⟨rfl, hfits⟩
    have htotal : ((List.range (divCeil n c + 1)).map (chunkBase c width))[divCeil n c]? =
        some (chunkBase c width (divCeil n c)) := by
      rw [List.getElem?_map, List.getElem?_range (Nat.lt_succ_self _), Option.map_some]
    apply (sound_orPanic htotal).bind
    rintro total rfl
    have hchunk : ∀ pos < perm.length, pos / c < divCeil n c :=
      fun pos hpos => div_lt_divCeil hc (hlength ▸ hpos)
    apply (sound_permSlots hchunk hlt).bind
    rintro _ rfl
    have hwidth : ∀ pos orig, perm[pos]? = some orig →
        (rowAt rows orig).length ≤ width (pos / c) := by
      intro pos orig horig
      have hpos := (List.getElem?_eq_some_iff.mp horig).1
      have hle := @le_chunkWidth c n pos rowLen hc (hlength ▸ hpos)
      rw [List.getD_eq_getElem?_getD, List.getElem?_map, horig] at hle
      exact hle
    obtain ⟨colIdx, hcolIdx, hcollen, hcol⟩ := fill_slots hc hwidth hchunk Prod.fst 0
    obtain ⟨vals, hvals, hvallen, hval⟩ := fill_slots hc hwidth hchunk Prod.snd 0
    apply (sound_orPanic hcolIdx).bind
    rintro _ rfl
    apply (sound_orPanic hvals).bind
    rintro _ rfl
    apply Within.ok
    exact Packed.of_slots hc rfl hperm rfl rfl hchunks hfits hcollen hvallen hwidth hcol hval

end Conversion

end Sell

end FrankenSim.Sparse
