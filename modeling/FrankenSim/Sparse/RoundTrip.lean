import FrankenSim.Sparse.Sliced
import FrankenSim.Sparse.Symmetrize

/-!
# Back from sliced rows

The rows are read from their lanes at their true lengths, so that nothing is lost on the
way to the sliced format and back. Within a window the longer rows come first and rows of
one length keep their order.
-/
namespace FrankenSim.Sparse

open Library

variable {V : Type}

namespace Sell


def laneEntries (S : Sell V) (pos : ℕ) : Option (List (ℕ × V)) := do
  let len ← S.rowLen[pos]?
  (List.range len).mapM fun k => do
    let base ← S.chunkPtr[pos / S.c]?
    let col ← S.colIdx[base + k * S.c + pos % S.c]?
    let val ← S.vals[base + k * S.c + pos % S.c]?
    some (col, val)

def toCsr (S : Sell V) : Option (Csr V) := do
  let perRow ← S.perm.zipIdx.foldlM (fun perRow p => do
    let entries ← S.laneEntries p.2
    modifyAt p.1 (· ++ entries) perRow) (List.replicate S.nrows [])
  Csr.fromParts S.nrows S.ncols (offsets perRow) (perRow.flatten.map Prod.fst)
    (perRow.flatten.map Prod.snd)

section Expansion

variable {S : Sell V} {ncols : ℕ} {rows : List (List (ℕ × V))}

variable [Zero V]

theorem Packed.laneEntries (hS : S.Packed ncols rows) {pos : ℕ} (h : pos < rows.length) :
    S.laneEntries pos = some (S.sorted rows pos) := by
  have hchunk := hS.getElem?_chunkPtr (Nat.le_of_lt (div_lt_divCeil hS.c_pos h))
  have hentries : (List.range (S.sorted rows pos).length).mapM (fun k => do
      let base ← S.chunkPtr[pos / S.c]?
      let col ← S.colIdx[base + k * S.c + pos % S.c]?
      let val ← S.vals[base + k * S.c + pos % S.c]?
      some (col, val)) =
      some ((List.range (S.sorted rows pos).length).map ((S.sorted rows pos).getD · (0, 0))) := by
    apply mapM_some
    intro k hk
    have hget := List.getElem?_eq_getElem (List.mem_range.1 hk)
    have hcol := hS.colIdx_slot pos h k _ hget
    have hval := hS.vals_slot pos h k _ hget
    rw [slot] at hcol hval
    simp only [hchunk, hcol, hval, Option.bind_eq_bind, Option.bind_some,
      List.getD_eq_getElem?_getD, hget, Option.getD_some]
  rw [Sell.laneEntries, hS.getElem?_rowLen h, Option.bind_eq_bind, Option.bind_some, hentries]
  congr 1
  apply List.ext_getElem (by simp)
  intro k hk hk'
  simp [hk']

/-- Every original row gets the entries of its one sorted position. -/
theorem Packed.toCsr (hS : S.Packed ncols rows) (hrows : ∀ row ∈ rows, Csr.RowOk ncols row) :
    S.toCsr = some (Csr.ofRows ncols rows) := by
  have hnodup : S.perm.Nodup := hS.perm.nodup_iff.2 List.nodup_range
  have hloop : S.perm.zipIdx.foldlM (fun perRow p => do
      let entries ← S.laneEntries p.2
      modifyAt p.1 (· ++ entries) perRow) (List.replicate S.nrows []) = some rows := by
    have hlanes : S.perm.zipIdx.foldlM (fun perRow p => do
        let entries ← S.laneEntries p.2
        modifyAt p.1 (· ++ entries) perRow) (List.replicate S.nrows []) =
        S.perm.zipIdx.foldlM (fun perRow p => modifyAt p.1 (· ++ rowAt rows p.1) perRow)
          (List.replicate S.nrows []) := by
      apply foldlM_congr
      intro p hp perRow
      have hp := List.mem_zipIdx_iff_getElem?.1 hp
      have hpos : p.2 < rows.length := hS.perm_length ▸ (List.getElem?_eq_some_iff.1 hp).1
      have hsorted : S.sorted rows p.2 = rowAt rows p.1 := by
        rw [sorted, List.getD_eq_getElem?_getD, hp, Option.getD_some]
      rw [hS.laneEntries hpos, Option.bind_eq_bind, Option.bind_some, hsorted]
    rw [hlanes, foldlM_modifyAt Prod.fst fun p row => row ++ rowAt rows p.1]
    · congr 1
      apply List.ext_getElem (by simp [hS.nrows_eq])
      intro r hr hr'
      have hmem : r ∈ S.perm := hS.perm.mem_iff.2 (List.mem_range.2 hr')
      have hone : (S.perm.zipIdx.filter (·.1 = r)).map Prod.fst = [r] := by
        have hfilter : (S.perm.zipIdx.filter (·.1 = r)).map Prod.fst =
            (S.perm.zipIdx.map Prod.fst).filter (· = r) := by
          rw [List.filter_map]
          rfl
        rw [hfilter, List.zipIdx_map_fst, List.filter_eq, List.count_eq_one_of_mem hnodup hmem]
        rfl
      rw [List.getElem_mapIdx, List.getElem_replicate]
      have hfold := @List.foldl_map _ _ _ Prod.fst (fun row i => row ++ rowAt rows i)
        (S.perm.zipIdx.filter (·.1 = r)) []
      rw [← hfold, hone, List.foldl_cons, List.foldl_nil, List.nil_append, rowAt_of_lt hr']
    · intro p hp
      have hmem := List.mem_of_getElem? (List.mem_zipIdx_iff_getElem?.1 hp)
      rw [List.length_replicate, hS.nrows_eq]
      exact List.mem_range.1 (hS.perm.mem_iff.1 hmem)
  rw [Sell.toCsr, hloop, Option.bind_eq_bind, Option.bind_some, hS.nrows_eq, hS.ncols_eq]
  exact Csr.fromParts_ofRows rfl hrows

end Expansion

/-- Within a window the longer rows come first, rows of one length in their order. -/
def WindowSorted (A : Csr V) (sigma : ℕ) (perm : List ℕ) : Prop :=
  ∀ p q r s, perm[p]? = some r → perm[q]? = some s → p < q → p / sigma = q / sigma →
    ∃ m n, rowLength A r = some m ∧ rowLength A s = some n ∧ n ≤ m ∧ (m = n → r < s)

section Windows

variable {A : Csr V} {sigma : ℕ}

/-- The windows follow each other, each of them sorted. -/
theorem pairwise_sortWindows (h : 0 < sigma) : (sortWindows A sigma).Pairwise fun r s =>
    r / sigma < s / sigma ∨ r / sigma = s / sigma ∧
      (rowLength A s).getD 0 ≤ (rowLength A r).getD 0 ∧
      ((rowLength A r).getD 0 = (rowLength A s).getD 0 → r < s) := by
  have hwindow : ∀ w n, ∀ r ∈ sortByKey (fun r => OrderDual.toDual ((rowLength A r).getD 0))
      ((List.range (min sigma n)).map (w * sigma + ·)), r / sigma = w := by
    intro w n r hr
    rw [mem_sortByKey, List.mem_map] at hr
    obtain ⟨i, hi, rfl⟩ := hr
    have hi := List.mem_range.1 hi
    rw [Nat.mul_comm, Nat.mul_add_div h, Nat.div_eq_of_lt (by omega), Nat.add_zero]
  rw [sortWindows, List.pairwise_flatMap]
  constructor
  · intro w _
    have hascend : ((List.range (min sigma (A.nrows - w * sigma))).map (w * sigma + ·)).Pairwise
        (· < ·) := by
      rw [List.pairwise_map]
      exact List.pairwise_lt_range.imp fun hlt => Nat.add_lt_add_left hlt _
    apply (pairwise_sortByKey hascend).imp_of_mem
    rintro r s hr hs ⟨hle, hstable⟩
    exact Or.inr ⟨(hwindow w _ r hr).trans (hwindow w _ s hs).symm, hle,
      fun heq => hstable (congrArg OrderDual.toDual heq)⟩
  · apply List.pairwise_lt_range.imp
    intro w w' hlt r hr s hs
    left
    rw [hwindow w _ r hr, hwindow w' _ s hs]
    exact hlt

theorem sortWindows_window (h : 0 < sigma) {p r : ℕ} (hr : (sortWindows A sigma)[p]? = some r) :
    r / sigma = p / sigma := by
  have hsorted : ((sortWindows A sigma).map (· / sigma)).Pairwise (· ≤ ·) := by
    rw [List.pairwise_map]
    apply (pairwise_sortWindows h).imp
    rintro r s (hlt | ⟨heq, -⟩)
    · exact Nat.le_of_lt hlt
    · exact Nat.le_of_eq heq
  have hrange : ((List.range A.nrows).map (· / sigma)).Pairwise (· ≤ ·) := by
    rw [List.pairwise_map]
    exact List.pairwise_lt_range.imp fun hlt => Nat.div_le_div_right (Nat.le_of_lt hlt)
  have heq : (sortWindows A sigma).map (· / sigma) = (List.range A.nrows).map (· / sigma) :=
    ((sortWindows_perm A h).map _).eq_of_pairwise (fun _ _ _ _ => Nat.le_antisymm) hsorted hrange
  have hp : p < A.nrows := by
    have hlt := (List.getElem?_eq_some_iff.1 hr).1
    rwa [(sortWindows_perm A h).length_eq, List.length_range] at hlt
  have hget := congrArg (·[p]?) heq
  simp only [List.getElem?_map, hr, List.getElem?_range hp, Option.map_some,
    Option.some.injEq] at hget
  exact hget

theorem windowSorted_sortWindows (hA : A.Canonical) (h : 0 < sigma) :
    WindowSorted A sigma (sortWindows A sigma) := by
  obtain ⟨rows, hrows, -⟩ := hA.exists_rows
  have hlength : ∀ r ∈ sortWindows A sigma, rowLength A r = some (rowAt rows r).length := by
    intro r hr
    have hr := List.mem_range.1 ((sortWindows_perm A h).mem_iff.1 hr)
    rw [hrows] at hr ⊢
    exact rowLength_ofRows hr
  intro p q r s hr hs hlt hwindow
  obtain ⟨hp, rfl⟩ := List.getElem?_eq_some_iff.1 hr
  obtain ⟨hq, rfl⟩ := List.getElem?_eq_some_iff.1 hs
  have hpair := List.pairwise_iff_getElem.1 (@pairwise_sortWindows V A sigma h) p q hp hq hlt
  rw [hlength _ (List.getElem_mem hp), hlength _ (List.getElem_mem hq)] at hpair
  refine ⟨_, _, hlength _ (List.getElem_mem hp), hlength _ (List.getElem_mem hq), ?_⟩
  rcases hpair with hbefore | ⟨-, hpair⟩
  · rw [sortWindows_window h hr, sortWindows_window h hs, hwindow] at hbefore
    exact absurd hbefore (Nat.lt_irrefl _)
  · exact hpair

/-- The rounded window is not empty, and the rows are sorted in it. -/
theorem fromCsr_window [Zero V] {c : ℕ} {S : Sell V} (h : fromCsr A c sigma = .ok S) :
    0 < S.sigma ∧ S.perm = sortWindows A S.sigma := by
  unfold fromCsr at h
  split at h
  case isTrue => cases h
  case isFalse hzero =>
    simp only [bind_eq_ok_iff] at h
    obtain ⟨rounded, hrounded, _, _, _, _, _, _, _, _, _, _, _, _, _, _, hS⟩ := h
    cases hS
    have hc : 0 < c := Nat.pos_of_ne_zero hzero
    have hrounded := (sound_mul _ _ _).of_ok hrounded
    have hle := le_divCeil_mul hc (max sigma c)
    have hpos : 0 < rounded := by
      rw [hrounded.1]
      omega
    exact ⟨hpos, rfl⟩

end Windows

end Sell

/-- Nothing is lost by transposition, by the sliced format or by symmetrization. -/
theorem Csr.Canonical.conversions [Zero V] {A : Csr V} (hA : A.Canonical) :
    (∃ T, A.transpose = some T ∧ T.Canonical ∧ T.nrows = A.ncols ∧ T.ncols = A.nrows ∧
      (∀ r c v, T.HasEntry c r v ↔ A.HasEntry r c v) ∧ T.transpose = some A) ∧
    (∀ c sigma S, Sell.fromCsr A c sigma = .ok S → S.toCsr = some A ∧
      S.perm.Perm (List.range A.nrows) ∧
      (∀ p r, S.perm[p]? = some r → r / S.sigma = p / S.sigma) ∧
      Sell.WindowSorted A S.sigma S.perm) ∧
    (A.nrows = A.ncols → A.ncols ≤ usizeMax → ∀ midpoint : V → V → V,
      ∃ M, A.symmetrize midpoint = some M ∧ M.Canonical ∧ M.nrows = A.nrows ∧ M.ncols = A.ncols ∧
        (∀ i j, (∃ v, M.HasEntry i j v) ↔ (∃ x, A.HasEntry i j x) ∨ ∃ y, A.HasEntry j i y) ∧
        ((∀ x y, midpoint x y = midpoint y x) → ∀ i j v, M.HasEntry i j v ↔ M.HasEntry j i v)) := by
  refine ⟨?_, ?_, ?_⟩
  · obtain ⟨T, hT, hcanonical, hnrows, hncols, hstores⟩ := hA.transpose
    exact ⟨T, hT, hcanonical, hnrows, hncols, hstores, hA.transpose_transpose hT⟩
  · intro c sigma S hS
    obtain ⟨rows, hrows, hok⟩ := hA.exists_rows
    obtain ⟨hsigma, hperm⟩ := Sell.fromCsr_window hS
    rw [hrows] at hS
    have hpacked := Sell.sound_fromCsr.of_ok hS
    refine ⟨?_, ?_, ?_, ?_⟩
    · rw [hpacked.toCsr hok, ← hrows]
    · rw [hperm]
      exact Sell.sortWindows_perm A hsigma
    · intro p r hr
      rw [hperm] at hr
      exact Sell.sortWindows_window hsigma hr
    · rw [hperm]
      exact Sell.windowSorted_sortWindows hA hsigma
  · intro hsquare hfits midpoint
    obtain ⟨M, hM, hcanonical, hnrows, hncols, hstores⟩ := hA.symmetrize hsquare hfits midpoint
    refine ⟨M, hM, hcanonical, hnrows, hncols, ?_, ?_⟩
    · intro i j
      simp [hstores]
    · intro hcomm i j v
      rw [hstores, hstores, or_comm, hcomm]

def raggedRows : Csr ℕ := ⟨3, 3, [0, 2, 2, 3], [0, 2, 1], [1, 2, 3]⟩

theorem conversions_ragged :
    (∃ T, raggedRows.transpose = some T ∧ T.transpose = some raggedRows) ∧
    (∃ S, Sell.fromCsr raggedRows 2 2 = .ok S ∧ S.toCsr = some raggedRows) ∧
    ∃ M, raggedRows.symmetrize (· + ·) = some M ∧ ∀ i j v, M.HasEntry i j v ↔ M.HasEntry j i v := by
  have hcanonical : raggedRows.Canonical := by decide
  obtain ⟨⟨T, hT, -, -, -, -, hback⟩, hsell, hsymmetric⟩ := hcanonical.conversions
  obtain ⟨M, hM, -, -, -, -, hcomm⟩ := hsymmetric rfl (by decide) (· + ·)
  refine ⟨⟨T, hT, hback⟩, ?_, M, hM, hcomm Nat.add_comm⟩
  have haccepted : (Sell.fromCsr raggedRows 2 2).isOk = true := by decide +kernel
  cases hS : Sell.fromCsr raggedRows 2 2 with
  | error e =>
    rw [hS] at haccepted
    cases haccepted
  | ok S => exact ⟨S, rfl, (hsell 2 2 S hS).1⟩

end FrankenSim.Sparse
