import FrankenSim.Sparse.Compact
import FrankenSim.Sparse.Sliced

/-!
# The kernels agree

Every kernel, on every layout and with every schedule of its workers, writes each
output cell once and leaves the same values.
-/
namespace FrankenSim.Sparse

open Library

variable {V : Type} [FusedMulAdd V]

/-- On a canonical matrix all matrix-vector kernels leave one vector, and every
column that the kernels with several right-hand sides leave is the vector for
that column. The compact layout exists while its columns fit, and the sliced
layout is refused, if at all, with a structured error. -/
theorem kernels_agree (A : Csr V) (hA : A.Canonical) :
    (A.ncols < UInt32.size → ∃ B, CsrCompact.fromCsr A = some B) ∧
    (∀ c sigma, Sell.fromCsr A c sigma ≠ .error .panic) ∧
    (∀ x : List V, x.length = A.ncols → ∃ out, ∀ y : List V, y.length = A.nrows →
      Fills (A.spmv x y) y out ∧
      ∀ (finish : Completion) (host : Option ℕ+) (threads : ℕ),
        (∀ B, CsrCompact.fromCsr A = some B → Fills (B.spmv x y) y out ∧
          Fills (CsrCompact.spmvSharded finish host B x y threads) y out) ∧
        ∀ c sigma S, Sell.fromCsr A c sigma = .ok S → Fills (S.spmv x y) y out ∧
          Fills (S.spmvChunked x y) y out ∧
          Fills (S.spmvChunkedSharded finish host x y threads) y out) ∧
    ∀ (k : ℕ) (x y : List V), x.length = A.ncols * k → y.length = A.nrows * k →
      x.length ≤ usizeMax → y.length ≤ usizeMax →
      ∃ out, Fills (A.spmm x k y) y out ∧ Fills (A.spmmBlocked x k y) y out ∧
        ∀ j < k, ∀ y : List V, y.length = A.nrows →
          Fills (A.spmv (column A.ncols k j x) y) y (column A.nrows k j out) := by
  obtain ⟨rows, hrowsA, hrows⟩ := hA.exists_rows
  have hnrows : A.nrows = rows.length := by rw [hrowsA]; rfl
  generalize A.ncols = ncols at *
  subst hrowsA
  have hsound {c sigma : ℕ} := @Sell.sound_fromCsr _ ncols rows _ c sigma
  refine ⟨fun hlt => ⟨_, CsrCompact.fromCsr_ofRows hrows hlt⟩, ?_, ?_, ?_⟩
  · intro c sigma hpanic
    have h := @hsound c sigma
    rw [hpanic] at h
    exact h rfl
  · intro x hx
    refine ⟨product rows x, ?_⟩
    intro y hy
    refine ⟨fills_spmv hrows hx hy, ?_⟩
    intro finish host threads
    constructor
    · intro B hB
      have hlt : ncols < UInt32.size := by
        by_contra hge
        simp [CsrCompact.fromCsr, Csr.ofRows, hge] at hB
      rw [CsrCompact.fromCsr_ofRows hrows hlt, Option.some.injEq] at hB
      subst hB
      exact ⟨CsrCompact.fills_spmv hrows hlt hx hy,
        CsrCompact.fills_spmvSharded hrows hlt hx hy finish host threads⟩
    · intro c sigma S hS
      have hpacked := hsound.of_ok hS
      exact ⟨Sell.fills_spmv hpacked hrows hx hy, Sell.fills_spmvChunked hpacked hrows hx hy,
        Sell.fills_spmvChunkedSharded hpacked hrows hx hy finish host threads⟩
  · intro k x y hx hy hxmax hymax
    refine ⟨productCols ncols rows k x, fills_spmm hrows hx hy hxmax hymax,
      fills_spmmBlocked hrows hx hy hxmax hymax, ?_⟩
    intro j hj z hz
    have hcolumn := @column_productCols _ _ ncols rows k x j hj
    rw [hnrows, hcolumn]
    apply fills_spmv hrows _ hz
    rw [column, List.length_map, List.length_range]

section Witness

local instance : FusedMulAdd ℕ where
  mulAdd v x acc := v * x + acc

/-- A canonical matrix with an empty row, in chunks of two rows and on two workers. -/
theorem kernels_agree_three :
    ∃ B S out M, CsrCompact.fromCsr (Csr.ofRows 3 [[(0, 1), (2, 2)], [], [(1, 3)]]) = some B ∧
      Sell.fromCsr (Csr.ofRows 3 [[(0, 1), (2, 2)], [], [(1, 3)]]) 2 2 = .ok S ∧
      Fills ((Csr.ofRows 3 [[(0, 1), (2, 2)], [], [(1, 3)]]).spmv [1, 2, 3] [9, 9, 9])
        [9, 9, 9] out ∧
      Fills (CsrCompact.spmvSharded ⟨List.reverse, List.reverse_perm⟩ (some 2) B [1, 2, 3] [9, 9, 9]
        2) [9, 9, 9] out ∧
      Fills (S.spmvChunkedSharded ⟨List.reverse, List.reverse_perm⟩ (some 2) [1, 2, 3] [9, 9, 9] 2)
        [9, 9, 9] out ∧
      Fills ((Csr.ofRows 3 [[(0, 1), (2, 2)], [], [(1, 3)]]).spmmBlocked [1, 4, 2, 5, 3, 6] 2
        [9, 9, 9, 9, 9, 9]) [9, 9, 9, 9, 9, 9] M := by
  obtain ⟨hcompact, -, hvector, hcolumns⟩ := kernels_agree
    (Csr.ofRows 3 [[(0, 1), (2, 2)], [], [(1, 3)]]) (by decide)
  obtain ⟨B, hB⟩ := hcompact (by decide)
  obtain ⟨S, hS⟩ : ∃ S, Sell.fromCsr (Csr.ofRows 3 [[(0, 1), (2, 2)], [], [(1, 3)]]) 2 2 = .ok S :=
    ⟨_, rfl⟩
  obtain ⟨out, hout⟩ := hvector [1, 2, 3] rfl
  obtain ⟨hspmv, hworkers⟩ := hout [9, 9, 9] rfl
  obtain ⟨hsharded, hsliced⟩ := hworkers ⟨List.reverse, List.reverse_perm⟩ (some 2) 2
  obtain ⟨M, -, hblocked, -⟩ := hcolumns 2 [1, 4, 2, 5, 3, 6] [9, 9, 9, 9, 9, 9] rfl rfl (by decide)
    (by decide)
  exact ⟨B, S, out, M, hB, hS, hspmv, (hsharded B hB).2, (hsliced 2 2 S hS).2.2, hblocked⟩

end Witness

end FrankenSim.Sparse
