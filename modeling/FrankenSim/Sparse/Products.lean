import FrankenSim.Sparse.Gustavson
import Mathlib.Algebra.BigOperators.Ring.Finset

/-!
# Entries of a product

A product stores an entry wherever some inner index meets stored entries on both sides.
Over a semiring its value is the sum of the products over the inner index.
-/
namespace FrankenSim.Sparse

open Library

abbrev FusedMulAdd.ofSemiring (V : Type) [Semiring V] : FusedMulAdd V where
  zero := 0
  mulAdd a b c := a * b + c

variable {V : Type}

theorem mem_rowProducts {rows cols : List (List (ℕ × V))} {i j : ℕ} :
    (∃ p ∈ rowProducts rows cols i, p.1 = j) ↔
      ∃ k a b, (k, a) ∈ rowAt rows i ∧ (j, b) ∈ rowAt cols k := by
  simp only [rowProducts, List.mem_flatMap, List.mem_map]
  constructor
  · rintro ⟨p, ⟨⟨k, a⟩, ha, ⟨j', b⟩, hb, rfl⟩, rfl⟩
    exact ⟨k, a, b, ha, hb⟩
  · rintro ⟨k, a, b, ha, hb⟩
    exact ⟨_, ⟨(k, a), ha, (j, b), hb, rfl⟩, rfl⟩

section Sum

variable [Semiring V] {row : List (ℕ × V)}

theorem filter_row (hrow : row.Pairwise fun e f => e.1 < f.1) (j : ℕ) :
    ((row.filter (·.1 = j)).map Prod.snd).sum = valueAt row j := by
  induction row with
  | nil => rfl
  | cons e row ih =>
    obtain ⟨hfirst, hrest⟩ := List.pairwise_cons.1 hrow
    by_cases hkey : e.1 = j
    · have hnone : row.filter (·.1 = j) = [] := by
        rw [List.filter_eq_nil_iff]
        intro f hf
        have := hfirst f hf
        simp only [decide_eq_true_eq]
        omega
      rw [List.filter_cons_of_pos (by simpa using hkey), hnone]
      simp [valueAt, lookup, hkey]
    · rw [List.filter_cons_of_neg (by simpa using hkey), ih hrest]
      simp [valueAt, lookup, hkey]

theorem sum_row {n : ℕ} (hrow : row.Pairwise fun e f => e.1 < f.1) (hbound : ∀ e ∈ row, e.1 < n)
    (g : ℕ → V) :
    (row.map fun e => e.2 * g e.1).sum = ∑ k ∈ Finset.range n, valueAt row k * g k := by
  induction row with
  | nil => simp [valueAt, lookup]
  | cons e row ih =>
    obtain ⟨hfirst, hrest⟩ := List.pairwise_cons.1 hrow
    have hvalue : ∀ k, valueAt (e :: row) k * g k =
        (if e.1 = k then e.2 * g k else 0) + valueAt row k * g k := by
      intro k
      by_cases hkey : e.1 = k
      · have hnone : valueAt row k = 0 := by
          apply valueAt_of_not_mem
          intro v hv
          have := hfirst _ hv
          omega
        rw [hnone, valueAt_of_mem hrow (by rw [← hkey]; exact List.mem_cons_self)]
        simp [hkey]
      · simp [valueAt, lookup, hkey]
    simp only [hvalue]
    rw [Finset.sum_add_distrib, ← ih hrest fun f hf => hbound f (List.mem_cons_of_mem _ hf),
      Finset.sum_ite_eq, if_pos (Finset.mem_range.2 (hbound e List.mem_cons_self))]
    rfl

theorem accumulated_eq_sum {n m : ℕ} {rows cols : List (List (ℕ × V))} {i : ℕ}
    (hrows : ∀ row ∈ rows, Csr.RowOk n row) (hcols : ∀ row ∈ cols, Csr.RowOk m row) (j : ℕ)
    (hi : i < rows.length) :
    @accumulated V (FusedMulAdd.ofSemiring V) (rowProducts rows cols i) j =
      ∑ k ∈ Finset.range n, valueAt (rowAt rows i) k * valueAt (rowAt cols k) j := by
  have hfold : ∀ (ps : List (ℕ × V × V)) (acc : V),
      ps.foldl (fun v p => p.2.1 * p.2.2 + v) acc = acc + (ps.map fun p => p.2.1 * p.2.2).sum := by
    intro ps
    induction ps with
    | nil => simp
    | cons p ps ih =>
      intro acc
      rw [List.foldl_cons, ih, List.map_cons, List.sum_cons, add_comm _ acc, add_assoc]
  have hsum : @accumulated V (FusedMulAdd.ofSemiring V) (rowProducts rows cols i) j =
      (((rowProducts rows cols i).filter (·.1 = j)).map fun p => p.2.1 * p.2.2).sum :=
    (hfold _ 0).trans (zero_add _)
  rw [hsum, ← sum_row (Csr.pairwise_rowAt hrows) (rowAt_ok hrows hi).2
    fun k => valueAt (rowAt cols k) j]
  rw [rowProducts, List.filter_flatMap, List.map_flatMap, List.flatMap_def, List.sum_flatten,
    List.map_map]
  congr 1
  apply List.map_congr_left
  intro e _
  rw [← filter_row (Csr.pairwise_rowAt hcols), Function.comp_apply, List.filter_map, List.map_map,
    ← List.sum_map_mul_left]
  rfl

end Sum

section Products

variable [FusedMulAdd V] {A B : Csr V}

/-- The product of canonical matrices, entry by entry. -/
theorem Csr.Canonical.product (hA : A.Canonical) (hB : B.Canonical) (hdim : A.ncols = B.nrows) :
    ∃ rows cols, A = ofRows A.ncols rows ∧ B = ofRows B.ncols cols ∧
      (∀ row ∈ rows, RowOk A.ncols row) ∧ (∀ row ∈ cols, RowOk B.ncols row) ∧
      ∃ C, A.spgemm B = some C ∧ A.spgemmSparseSpa B = some C ∧ C.Canonical ∧
        C.nrows = A.nrows ∧ C.ncols = B.ncols ∧ ∀ i j v, C.HasEntry i j v ↔
          (∃ k a b, A.HasEntry i k a ∧ B.HasEntry k j b) ∧ v = accumulated (rowProducts rows cols i) j := by
  obtain ⟨rows, hrows, hok⟩ := hA.exists_rows
  obtain ⟨cols, hcols, hok'⟩ := hB.exists_rows
  have hinner : cols.length = A.ncols := by
    rw [hdim, hcols]
    rfl
  have hok'' : ∀ row ∈ rows, RowOk cols.length row := hinner ▸ hok
  obtain ⟨hdense, hsorted⟩ := spgemm_ofRows hok'' hok'
  rw [hinner, ← hrows, ← hcols] at hdense hsorted
  refine ⟨rows, cols, hrows, hcols, hok, hok', _, hdense, hsorted,
    canonical_ofRows (rowOk_productRows hok'' hok'), ?_, rfl, ?_⟩
  · rw [hrows]
    simp [ofRows, productRows]
  · intro i j v
    simp only [stores_rows hrows, stores_rows hcols]
    rw [stores_ofRows, ← mem_rowProducts]
    rcases Nat.lt_or_ge i rows.length with hi | hi
    · rw [rowAt_of_lt (by simpa [productRows] using hi)]
      simp only [productRows, List.getElem_map, List.getElem_range]
      exact mem_productRow
    · have hnone : rowAt (productRows rows cols) i = [] := rowAt_of_le (by simpa [productRows] using hi)
      rw [hnone, rowProducts, rowAt_of_le hi]
      simp

end Products

/-- Both accumulators compute the same canonical product. An entry is stored exactly when some
inner index has stored entries on both sides; over a semiring it is the sum of the products. -/
theorem Csr.Canonical.products_agree :
    (∀ {V : Type} [FusedMulAdd V] (A B : Csr V), A.Canonical → B.Canonical → A.ncols = B.nrows →
      ∃ C, A.spgemm B = some C ∧ A.spgemmSparseSpa B = some C ∧ C.Canonical ∧
        C.nrows = A.nrows ∧ C.ncols = B.ncols ∧
        ∀ i j, (∃ v, C.HasEntry i j v) ↔ ∃ k a b, A.HasEntry i k a ∧ B.HasEntry k j b) ∧
    ∀ {V : Type} [Semiring V] (A B : Csr V), A.Canonical → B.Canonical → A.ncols = B.nrows →
      ∃ C, @Csr.spgemm V (FusedMulAdd.ofSemiring V) A B = some C ∧
        @Csr.spgemmSparseSpa V (FusedMulAdd.ofSemiring V) A B = some C ∧
        ∀ i j v, C.HasEntry i j v ↔ (∃ k a b, A.HasEntry i k a ∧ B.HasEntry k j b) ∧
          v = ∑ k ∈ Finset.range A.ncols, A.valueAt i k * B.valueAt k j := by
  constructor
  · intro V _ A B hA hB hdim
    obtain ⟨rows, cols, -, -, -, -, C, hdense, hsorted, hcanonical, hnrows, hncols, hstores⟩ :=
      hA.product hB hdim
    refine ⟨C, hdense, hsorted, hcanonical, hnrows, hncols, ?_⟩
    intro i j
    simp [hstores]
  · intro V _ A B hA hB hdim
    obtain ⟨rows, cols, hrows, hcols, hok, hok', C, hdense, hsorted, -, -, -, hstores⟩ :=
      @Csr.Canonical.product V (FusedMulAdd.ofSemiring V) A B hA hB hdim
    refine ⟨C, hdense, hsorted, ?_⟩
    intro i j v
    rw [hstores]
    apply and_congr_right
    rintro ⟨k, a, b, ha, -⟩
    have hi : i < rows.length := by
      have hlt := (hA.stores_lt ha).1
      rwa [hrows] at hlt
    rw [accumulated_eq_sum hok hok' j hi]
    simp only [valueAt_rows hrows, valueAt_rows hcols]

/-- Two matrices over the integers whose product has an entry that cancels. -/
def leftSmall : Csr ℤ := ⟨1, 2, [0, 2], [0, 1], [1, 1]⟩
def rightSmall : Csr ℤ := ⟨2, 2, [0, 2, 3], [0, 1, 1], [2, 3, -3]⟩

/-- A cancelled entry stays stored. -/
theorem products_small : ∃ C, @Csr.spgemm ℤ (FusedMulAdd.ofSemiring ℤ) leftSmall rightSmall = some C ∧
    @Csr.spgemmSparseSpa ℤ (FusedMulAdd.ofSemiring ℤ) leftSmall rightSmall = some C ∧
    C.HasEntry 0 1 0 := by
  have hleft : leftSmall.Canonical := by decide
  have hright : rightSmall.Canonical := by decide
  obtain ⟨C, hdense, hsorted, hstores⟩ := Csr.Canonical.products_agree.2 leftSmall rightSmall hleft
    hright rfl
  refine ⟨C, hdense, hsorted, ?_⟩
  rw [hstores]
  refine ⟨⟨0, 1, 3, ?_, ?_⟩, by decide⟩
  · exact ⟨[0, 1], [1, 1], rfl, by decide⟩
  · exact ⟨[0, 1], [2, 3], rfl, by decide⟩

end FrankenSim.Sparse
