import FrankenSim.Library.Groups
import FrankenSim.Sparse.Symmetrize

/-!
# Products of sparse matrices

Row by row, the rows of the right factor are added up with the entries of the left one as
weights. One accumulator is a dense scratch row that remembers which columns it touched,
the other one a sorted map. Both see the contributions to an entry in the same order.
-/
namespace FrankenSim.Sparse

open Library

variable {V : Type} [FusedMulAdd V]

/-- The dense accumulator: values, marks and the marked columns in the order of marking. -/
structure Spa (V : Type) where
  spa : List V
  occupied : List Bool
  touched : List ℕ

namespace Spa

def clean (n : ℕ) : Spa V := ⟨List.replicate n 0, List.replicate n false, []⟩

def contribute (s : Spa V) (weight : V) (e : ℕ × V) : Option (Spa V) := do
  let spa ← modifyAt e.1 (mulAdd weight e.2) s.spa
  let known ← s.occupied[e.1]?
  if known then some { s with spa := spa }
  else do
    let occupied ← modifyAt e.1 (fun _ => true) s.occupied
    some ⟨spa, occupied, s.touched ++ [e.1]⟩

/-- Move the value of a touched column into the row and reset the column. -/
def drainColumn (out : List (ℕ × V) × Spa V) (j : ℕ) : Option (List (ℕ × V) × Spa V) := do
  let v ← out.2.spa[j]?
  let spa ← modifyAt j (fun _ => 0) out.2.spa
  let occupied ← modifyAt j (fun _ => false) out.2.occupied
  some (out.1 ++ [(j, v)], { out.2 with spa := spa, occupied := occupied })

/-- The touched columns in ascending order, which leaves the accumulator clean. -/
def drain (s : Spa V) : Option (List (ℕ × V) × Spa V) := do
  let touched := sortByKey id s.touched
  let (row, s) ← touched.foldlM drainColumn ([], { s with touched := touched })
  some (row, { s with touched := [] })

end Spa

def contributeSorted (spa : SortedMap ℕ V) (weight : V) (e : ℕ × V) : Option (SortedMap ℕ V) :=
  some (spa.updateAt 0 e.1 (mulAdd weight e.2))

namespace Csr

def contributeRow {σ : Type} (contribute : σ → V → ℕ × V → Option σ) (A B : Csr V) (s : σ) (i : ℕ) :
    Option σ := do
  let a ← A.row i
  (a.1.zip a.2).foldlM (fun s e => do
    let b ← B.row e.1
    (b.1.zip b.2).foldlM (fun s f => contribute s e.2 f) s) s

/-- The product with the dense accumulator; `none` is a panic. -/
def spgemm (A B : Csr V) : Option (Csr V) := do
  guard (A.ncols = B.nrows)
  let (rows, _) ← (List.range A.nrows).foldlM (fun (out : List (List (ℕ × V)) × Spa V) i => do
    let s ← contributeRow Spa.contribute A B out.2 i
    let (row, s) ← s.drain
    some (out.1 ++ [row], s)) ([], Spa.clean B.ncols)
  fromParts A.nrows B.ncols (offsets rows) (rows.flatten.map Prod.fst) (rows.flatten.map Prod.snd)

/-- The product with the sorted accumulator, which is emptied after every row. -/
def spgemmSparseSpa (A B : Csr V) : Option (Csr V) := do
  guard (A.ncols = B.nrows)
  let rows ← (List.range A.nrows).mapM fun i => do
    let spa ← contributeRow contributeSorted A B SortedMap.empty i
    some spa.entries
  fromParts A.nrows B.ncols (offsets rows) (rows.flatten.map Prod.fst) (rows.flatten.map Prod.snd)

end Csr

/-- The products that make up row `i`: column, left and right factor. -/
def rowProducts (rows cols : List (List (ℕ × V))) (i : ℕ) : List (ℕ × V × V) :=
  (rowAt rows i).flatMap fun e => (rowAt cols e.1).map fun f => (f.1, e.2, f.2)

def accumulated (ps : List (ℕ × V × V)) (j : ℕ) : V :=
  (ps.filter (·.1 = j)).foldl (fun v p => mulAdd p.2.1 p.2.2 v) 0

def productRow (ps : List (ℕ × V × V)) : List (ℕ × V) :=
  (ps.foldl (fun m p => m.updateAt 0 p.1 (mulAdd p.2.1 p.2.2))
    (SortedMap.empty : SortedMap ℕ V)).entries

theorem pairwise_productRow (ps : List (ℕ × V × V)) :
    (productRow ps).Pairwise fun e f => e.1 < f.1 :=
  List.pairwise_map.1 (SortedMap.sorted _)

theorem mem_productRow {ps : List (ℕ × V × V)} {j : ℕ} {v : V} :
    (j, v) ∈ productRow ps ↔ (∃ p ∈ ps, p.1 = j) ∧ v = accumulated ps j := by
  have hsome := SortedMap.isSome_foldl_updateAt 0 (fun p : ℕ × V × V => p.1)
    (fun p => mulAdd p.2.1 p.2.2) ps SortedMap.empty j
  have hvalue := SortedMap.getD_foldl_updateAt 0 (fun p : ℕ × V × V => p.1)
    (fun p => mulAdd p.2.1 p.2.2) ps SortedMap.empty j
  rw [productRow, ← SortedMap.get?_eq_some]
  simp only [SortedMap.get?_empty, Option.isSome_none, Bool.false_eq_true, false_or,
    Option.getD_none] at hsome hvalue
  rw [← hsome, Option.isSome_iff_exists]
  constructor
  · intro hget
    rw [hget, Option.getD_some] at hvalue
    exact ⟨⟨v, hget⟩, hvalue⟩
  · rintro ⟨⟨w, hw⟩, rfl⟩
    rw [hw, Option.getD_some] at hvalue
    rw [hw, hvalue, accumulated]

section Dense

variable {n : ℕ} {ps : List (ℕ × V × V)}

structure Spa.Holds (n : ℕ) (ps : List (ℕ × V × V)) (s : Spa V) : Prop where
  spa : s.spa = (List.range n).map (accumulated ps)
  occupied : s.occupied = (List.range n).map fun j => decide (j ∈ s.touched)
  nodup : s.touched.Nodup
  mem : ∀ j, j ∈ s.touched ↔ ∃ p ∈ ps, p.1 = j

theorem Spa.holds_clean : Spa.Holds n [] (Spa.clean n : Spa V) := by
  constructor
  · apply List.ext_getElem (by simp [clean])
    intro j hj hj'
    simp [clean, accumulated]
  · apply List.ext_getElem (by simp [clean])
    intro j hj hj'
    simp [clean]
  · exact List.nodup_nil
  · simp [clean]

theorem accumulated_concat (p : ℕ × V × V) (j : ℕ) : accumulated (ps ++ [p]) j =
    if p.1 = j then mulAdd p.2.1 p.2.2 (accumulated ps j) else accumulated ps j := by
  by_cases h : p.1 = j <;> simp [accumulated, h]

theorem Spa.Holds.contribute {s : Spa V} (hs : Spa.Holds n ps s) {p : ℕ × V × V} (hp : p.1 < n) :
    ∃ s', s.contribute p.2.1 (p.1, p.2.2) = some s' ∧ Spa.Holds n (ps ++ [p]) s' := by
  have hspa : modifyAt p.1 (mulAdd p.2.1 p.2.2) s.spa =
      some ((List.range n).map (accumulated (ps ++ [p]))) := by
    rw [hs.spa, modifyAt_of_lt (by simpa using hp)]
    congr 1
    apply List.ext_getElem (by simp)
    intro j hj hj'
    simp [List.getElem_modify, accumulated_concat]
  have hknown : s.occupied[p.1]? = some (decide (p.1 ∈ s.touched)) := by
    rw [hs.occupied, List.getElem?_map, List.getElem?_range hp, Option.map_some]
  have hmem : ∀ j, (∃ q ∈ ps ++ [p], q.1 = j) ↔ (∃ q ∈ ps, q.1 = j) ∨ p.1 = j := by
    intro j
    constructor
    · rintro ⟨q, hq, rfl⟩
      rcases List.mem_append.1 hq with hq | hq
      · exact Or.inl ⟨q, hq, rfl⟩
      · exact Or.inr (by rw [List.mem_singleton.1 hq])
    · rintro (⟨q, hq, rfl⟩ | rfl)
      · exact ⟨q, List.mem_append_left _ hq, rfl⟩
      · exact ⟨p, List.mem_append_right _ (List.mem_singleton_self p), rfl⟩
  unfold Spa.contribute
  simp only [hspa, hknown, Option.bind_eq_bind, Option.bind_some, decide_eq_true_eq]
  split
  case isTrue htouched =>
    refine ⟨_, rfl, rfl, hs.occupied, hs.nodup, ?_⟩
    intro j
    rw [hmem, ← hs.mem]
    constructor
    · exact Or.inl
    · rintro (hj | rfl)
      · exact hj
      · exact htouched
  case isFalse hnew =>
    have hmark : modifyAt p.1 (fun _ => true) s.occupied =
        some ((List.range n).map fun j => decide (j ∈ s.touched ++ [p.1])) := by
      rw [hs.occupied, modifyAt_of_lt (by simpa using hp)]
      congr 1
      apply List.ext_getElem (by simp)
      intro j hj hj'
      by_cases hkey : p.1 = j
      · simp [hkey]
      · simp [hkey, Ne.symm hkey]
    rw [hmark, Option.bind_some]
    refine ⟨_, rfl, rfl, rfl, ?_, ?_⟩
    · exact List.nodup_append.2 ⟨hs.nodup, List.nodup_singleton _, by
        intro a ha b hb heq
        rw [List.mem_singleton.1 hb] at heq
        exact hnew (heq ▸ ha)⟩
    · intro j
      rw [hmem, ← hs.mem, List.mem_append, List.mem_singleton, eq_comm]

/-- Draining distinct columns moves their values out and resets them. -/
theorem Spa.drain_columns {js : List ℕ} (hjs : js.Nodup) {s : Spa V} (hspa : ∀ j ∈ js, j < s.spa.length)
    (hocc : ∀ j ∈ js, j < s.occupied.length) (row : List (ℕ × V)) :
    js.foldlM Spa.drainColumn (row, s) = some (row ++ js.map fun j => (j, s.spa.getD j 0),
      { s with
        spa := s.spa.mapIdx fun j v => if j ∈ js then 0 else v
        occupied := s.occupied.mapIdx fun j known => if j ∈ js then false else known }) := by
  induction js generalizing s row with
  | nil =>
    have hspa : s.spa.mapIdx (fun _ v => v) = s.spa := by apply List.ext_getElem <;> simp
    have hocc : s.occupied.mapIdx (fun _ known => known) = s.occupied := by
      apply List.ext_getElem <;> simp
    simp [hspa, hocc]
  | cons j js ih =>
    obtain ⟨hnew, hrest⟩ := List.nodup_cons.1 hjs
    have hj := hspa j List.mem_cons_self
    have hj' := hocc j List.mem_cons_self
    have hstep : Spa.drainColumn (row, s) j = some (row ++ [(j, s.spa.getD j 0)],
        { s with spa := s.spa.set j 0, occupied := s.occupied.set j false }) := by
      unfold Spa.drainColumn
      simp only [List.getElem?_eq_getElem hj, modifyAt_eq_set (List.getElem?_eq_getElem hj),
        modifyAt_eq_set (List.getElem?_eq_getElem hj'), Option.bind_eq_bind, Option.bind_some,
        List.getD_eq_getElem?_getD, Option.getD_some]
    rw [List.foldlM_cons, hstep, Option.bind_eq_bind, Option.bind_some,
      ih hrest (by simpa using fun k hk => hspa k (List.mem_cons_of_mem _ hk))
        (by simpa using fun k hk => hocc k (List.mem_cons_of_mem _ hk))]
    congr 1
    have hkept : js.map (fun k => (k, (s.spa.set j 0).getD k 0)) =
        js.map fun k => (k, s.spa.getD k 0) := by
      apply List.map_congr_left
      intro k hk
      have hne : j ≠ k := by
        rintro rfl
        exact hnew hk
      rw [List.getD_eq_getElem?_getD, List.getElem?_set_ne hne, ← List.getD_eq_getElem?_getD]
    rw [Prod.mk.injEq]
    constructor
    · rw [hkept, List.append_assoc, List.map_cons, List.singleton_append]
    · congr 1
      · apply List.ext_getElem (by simp)
        intro k hk hk'
        by_cases hkey : j = k
        · simp [hkey]
        · simp [List.getElem_set_ne hkey, Ne.symm hkey]
      · apply List.ext_getElem (by simp)
        intro k hk hk'
        by_cases hkey : j = k
        · simp [hkey]
        · simp [List.getElem_set_ne hkey, Ne.symm hkey]

/-- The drained row is the one of the sorted map, and nothing is left behind. -/
theorem Spa.Holds.drain {s : Spa V} (hs : Spa.Holds n ps s) (hps : ∀ p ∈ ps, p.1 < n) :
    s.drain = some (productRow ps, Spa.clean n) := by
  let touched := sortByKey id s.touched
  have hperm : touched.Perm s.touched := sortByKey_perm id s.touched
  have hnodup : touched.Nodup := hperm.nodup_iff.2 hs.nodup
  have hmem : ∀ j, j ∈ touched ↔ ∃ p ∈ ps, p.1 = j := by
    intro j
    rw [hperm.mem_iff, hs.mem]
  have hlt : ∀ j ∈ touched, j < n := by
    intro j hj
    obtain ⟨p, hp, rfl⟩ := (hmem j).1 hj
    exact hps p hp
  have hascend : touched.Pairwise (· < ·) := by
    apply ((sorted_sortByKey id s.touched).and hnodup).imp
    rintro i j ⟨hle, hne⟩
    exact Nat.lt_of_le_of_ne hle hne
  have hrow : touched.map (fun j => (j, s.spa.getD j 0)) = productRow ps := by
    have hpairs : (touched.map fun j => (j, s.spa.getD j 0)).Pairwise fun e f => e.1 < f.1 :=
      List.pairwise_map.2 hascend
    have hnodup' : ∀ {row : List (ℕ × V)}, (row.Pairwise fun e f => e.1 < f.1) → row.Nodup := by
      intro row hrow
      apply hrow.imp
      rintro e f hef rfl
      exact Nat.lt_irrefl _ hef
    have hsame : (touched.map fun j => (j, s.spa.getD j 0)).Perm (productRow ps) := by
      rw [List.perm_ext_iff_of_nodup (hnodup' hpairs) (hnodup' (pairwise_productRow ps))]
      rintro ⟨j, v⟩
      rw [mem_productRow, ← hmem, List.mem_map]
      have hvalue : ∀ j ∈ touched, s.spa.getD j 0 = accumulated ps j := by
        intro j hj
        rw [hs.spa, List.getD_eq_getElem?_getD, List.getElem?_map, List.getElem?_range (hlt j hj)]
        rfl
      constructor
      · rintro ⟨j, hj, heq⟩
        cases heq
        exact ⟨hj, hvalue j hj⟩
      · rintro ⟨hj, rfl⟩
        exact ⟨j, hj, by rw [hvalue j hj]⟩
    apply hsame.eq_of_pairwise _ hpairs (pairwise_productRow ps)
    intro e f _ _ hef hfe
    exact absurd (hef.trans hfe) (Nat.lt_irrefl _)
  have hspa : s.spa.length = n := by simp [hs.spa]
  have hocc : s.occupied.length = n := by simp [hs.occupied]
  have hdrained := @Spa.drain_columns V _ touched hnodup { s with touched := touched }
    (fun j hj => hspa ▸ hlt j hj) (fun j hj => hocc ▸ hlt j hj) []
  change (touched.foldlM Spa.drainColumn ([], { s with touched := touched }) >>= _) = _
  rw [hdrained, Option.bind_eq_bind, Option.bind_some, List.nil_append]
  dsimp only
  rw [hrow]
  congr 2
  unfold Spa.clean
  congr 1
  · apply List.ext_getElem (by simp [hspa])
    intro j hj hj'
    rw [List.getElem_mapIdx, List.getElem_replicate]
    split
    · rfl
    case isFalse hout =>
      have hnone : ps.filter (·.1 = j) = [] := by
        rw [List.filter_eq_nil_iff]
        intro p hp hkey
        exact hout ((hmem j).2 ⟨p, hp, by simpa using hkey⟩)
      simp [hs.spa, accumulated, hnone]
  · apply List.ext_getElem (by simp [hocc])
    intro j hj hj'
    rw [List.getElem_mapIdx, List.getElem_replicate]
    split
    · rfl
    case isFalse hout =>
      have hout : j ∉ s.touched := fun hin => hout (hperm.mem_iff.2 hin)
      simp [hs.occupied, hout]

end Dense

namespace Csr

section Rows

variable {ncols : ℕ} {rows cols : List (List (ℕ × V))}

omit [FusedMulAdd V] in
/-- Both accumulators see the products of a row in the order of `rowProducts`. -/
theorem contributeRow_eq {σ : Type} (contribute : σ → V → ℕ × V → Option σ) {i : ℕ}
    (hi : i < rows.length) (hrows : ∀ row ∈ rows, RowOk cols.length row) (s : σ) :
    contributeRow contribute (ofRows cols.length rows) (ofRows ncols cols) s i =
      (rowProducts rows cols i).foldlM (fun s p => contribute s p.2.1 (p.1, p.2.2)) s := by
  rw [contributeRow, row_rowAt hi, Option.bind_eq_bind, Option.bind_some, zip_map_fst_snd,
    rowProducts, foldlM_flatMap]
  apply foldlM_congr
  intro e he s
  rw [row_rowAt ((rowAt_ok hrows hi).2 e he), Option.bind_some, zip_map_fst_snd, List.foldlM_map]

omit [FusedMulAdd V] in
theorem rowProducts_lt {i : ℕ} (hi : i < rows.length) (hrows : ∀ row ∈ rows, RowOk cols.length row)
    (hcols : ∀ row ∈ cols, RowOk ncols row) : ∀ p ∈ rowProducts rows cols i, p.1 < ncols := by
  intro p hp
  obtain ⟨e, he, hp⟩ := List.mem_flatMap.1 hp
  obtain ⟨f, hf, rfl⟩ := List.mem_map.1 hp
  exact (rowAt_ok hcols ((rowAt_ok hrows hi).2 e he)).2 f hf

theorem foldlM_contribute {n : ℕ} {ps qs : List (ℕ × V × V)} (hqs : ∀ p ∈ qs, p.1 < n) {s : Spa V}
    (hs : Spa.Holds n ps s) : ∃ s', qs.foldlM (fun s p => s.contribute p.2.1 (p.1, p.2.2)) s =
      some s' ∧ Spa.Holds n (ps ++ qs) s' := by
  induction qs generalizing ps s with
  | nil => exact ⟨s, rfl, by rwa [List.append_nil]⟩
  | cons q qs ih =>
    obtain ⟨s', hstep, hs'⟩ := hs.contribute (hqs q List.mem_cons_self)
    obtain ⟨s'', hrest, hs''⟩ := ih (fun p hp => hqs p (List.mem_cons_of_mem _ hp)) hs'
    rw [List.append_assoc, List.singleton_append] at hs''
    refine ⟨s'', ?_, hs''⟩
    rw [List.foldlM_cons, hstep, Option.bind_eq_bind, Option.bind_some, hrest]

def productRows (rows cols : List (List (ℕ × V))) : List (List (ℕ × V)) :=
  (List.range rows.length).map fun i => productRow (rowProducts rows cols i)

theorem rowOk_productRows (hrows : ∀ row ∈ rows, RowOk cols.length row)
    (hcols : ∀ row ∈ cols, RowOk ncols row) : ∀ row ∈ productRows rows cols, RowOk ncols row := by
  intro row hrow
  obtain ⟨i, hi, rfl⟩ := List.mem_map.1 hrow
  constructor
  · exact (List.pairwise_map.2 (pairwise_productRow _)).isChain
  · rintro ⟨j, v⟩ hmem
    obtain ⟨⟨p, hp, rfl⟩, -⟩ := mem_productRow.1 hmem
    exact rowProducts_lt (List.mem_range.1 hi) hrows hcols p hp

/-- The scratch row is clean again after every row of the product. -/
theorem foldlM_dense (hrows : ∀ row ∈ rows, RowOk cols.length row)
    (hcols : ∀ row ∈ cols, RowOk ncols row) {m : ℕ} (hm : m ≤ rows.length) :
    (List.range m).foldlM (fun (out : List (List (ℕ × V)) × Spa V) i => do
        let s ← contributeRow Spa.contribute (ofRows cols.length rows) (ofRows ncols cols) out.2 i
        let (row, s) ← s.drain
        some (out.1 ++ [row], s)) ([], Spa.clean ncols) =
      some ((List.range m).map fun i => productRow (rowProducts rows cols i), Spa.clean ncols) := by
  induction m with
  | zero => rfl
  | succ m ih =>
    have hlt := rowProducts_lt hm hrows hcols
    obtain ⟨s, hrow, hs⟩ := foldlM_contribute hlt (@Spa.holds_clean V _ ncols)
    rw [List.nil_append] at hs
    rw [List.range_succ, List.foldlM_append, ih (Nat.le_of_lt hm), Option.bind_eq_bind,
      Option.bind_some, List.foldlM_cons, contributeRow_eq _ hm hrows, hrow, List.map_append]
    change ((s.drain >>= _) >>= _) = _
    rw [hs.drain hlt]
    rfl

theorem foldlM_sorted (ps : List (ℕ × V × V)) (m : SortedMap ℕ V) :
    ps.foldlM (fun s p => contributeSorted s p.2.1 (p.1, p.2.2)) m =
      some (ps.foldl (fun m p => m.updateAt 0 p.1 (mulAdd p.2.1 p.2.2)) m) := by
  induction ps generalizing m with
  | nil => rfl
  | cons p ps ih => exact ih _

theorem spgemm_ofRows (hrows : ∀ row ∈ rows, RowOk cols.length row)
    (hcols : ∀ row ∈ cols, RowOk ncols row) :
    (ofRows cols.length rows).spgemm (ofRows ncols cols) =
        some (ofRows ncols (productRows rows cols)) ∧
      (ofRows cols.length rows).spgemmSparseSpa (ofRows ncols cols) =
        some (ofRows ncols (productRows rows cols)) := by
  have hguard : (guard ((ofRows cols.length rows).ncols = (ofRows ncols cols).nrows) :
      Option Unit) = some () := guard_eq_some.2 rfl
  have hparts := @fromParts_ofRows V ncols (productRows rows cols) _ rfl
    (rowOk_productRows hrows hcols)
  have hcount : (ofRows ncols (productRows rows cols)).nrows = rows.length := by
    simp [ofRows, productRows]
  rw [hcount] at hparts
  constructor
  · have hloop := @foldlM_dense V _ ncols rows cols hrows hcols rows.length (Nat.le_refl _)
    rw [spgemm, hguard, Option.bind_eq_bind, Option.bind_some]
    change ((List.range rows.length).foldlM _ ([], Spa.clean ncols) >>= _) = _
    rw [hloop]
    exact hparts
  · have hloop : ((List.range rows.length).mapM fun i => do
        let spa ← contributeRow contributeSorted (ofRows cols.length rows) (ofRows ncols cols)
          SortedMap.empty i
        some spa.entries) = some (productRows rows cols) := by
      apply mapM_some
      intro i hi
      rw [contributeRow_eq _ (List.mem_range.1 hi) hrows, foldlM_sorted]
      rfl
    rw [spgemmSparseSpa, hguard, Option.bind_eq_bind, Option.bind_some]
    change ((List.range rows.length).mapM _ >>= _) = _
    rw [hloop]
    exact hparts

end Rows

end Csr

end FrankenSim.Sparse
