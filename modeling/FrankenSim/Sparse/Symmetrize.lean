import FrankenSim.Library.Keyed
import FrankenSim.Sparse.Kernels
import FrankenSim.Sparse.Transpose

/-!
# Symmetrization

A row of the matrix and the row of its transpose are merged by column, a missing side
counting as zero. The midpoint is any operation on the values.
-/
namespace FrankenSim.Sparse

open Library

variable {V : Type} [Zero V]

def nextColumn (rest : List (ℕ × V)) : ℕ := (rest.head?.map Prod.fst).getD usizeMax

/-- A side at column `c` gives its value and moves on; another side gives zero. -/
def takeColumn (c : ℕ) (rest : List (ℕ × V)) : Option (V × List (ℕ × V)) :=
  if nextColumn rest = c then
    match rest with
    | [] => none
    | e :: rest => some (e.2, rest)
  else some (0, rest)

/-- The merge of what is left of two rows, in at most this many steps. -/
def mergeRows (midpoint : V → V → V) : ℕ → List (ℕ × V) → List (ℕ × V) → Option (List (ℕ × V))
  | 0, as, bs => if as.isEmpty && bs.isEmpty then some [] else none
  | steps + 1, as, bs =>
    if as.isEmpty && bs.isEmpty then some []
    else do
      let c := min (nextColumn as) (nextColumn bs)
      let (x, as) ← takeColumn c as
      let (y, bs) ← takeColumn c bs
      let later ← mergeRows midpoint steps as bs
      some ((c, midpoint x y) :: later)

/-- The midpoint of a matrix and its transpose; `none` is a panic. -/
def Csr.symmetrize (midpoint : V → V → V) (A : Csr V) : Option (Csr V) := do
  guard (A.nrows = A.ncols)
  let T ← A.transpose
  let rows ← (List.range A.nrows).mapM fun r => do
    let a ← A.row r
    let b ← T.row r
    mergeRows midpoint (a.1.length + b.1.length) (a.1.zip a.2) (b.1.zip b.2)
  fromParts A.nrows A.nrows (offsets rows) (rows.flatten.map Prod.fst) (rows.flatten.map Prod.snd)

def valueAt (row : List (ℕ × V)) (c : ℕ) : V := ((lookup Prod.fst c row).map Prod.snd).getD 0

variable {as bs row : List (ℕ × V)} {c : ℕ}

theorem valueAt_of_mem (hrow : row.Pairwise fun e f => e.1 < f.1) {v : V} (h : (c, v) ∈ row) :
    valueAt row c = v := by
  have hnodup : (row.map Prod.fst).Nodup := by
    rw [List.Nodup, List.pairwise_map]
    exact hrow.imp fun hlt => Nat.ne_of_lt hlt
  have hfound : lookup Prod.fst c row = some (c, v) := lookup_of_mem hnodup h
  rw [valueAt, hfound]
  rfl

theorem valueAt_of_not_mem (h : ∀ v, (c, v) ∉ row) : valueAt row c = 0 := by
  have hnone : lookup Prod.fst c row = none := by
    rw [lookup_eq_none, List.mem_map]
    rintro ⟨⟨c, v⟩, hmem, rfl⟩
    exact h v hmem
  rw [valueAt, hnone]
  rfl

theorem valueAt_congr {row' : List (ℕ × V)} {c' : ℕ} (hrow : row.Pairwise fun e f => e.1 < f.1)
    (hrow' : row'.Pairwise fun e f => e.1 < f.1) (h : ∀ v, (c, v) ∈ row ↔ (c', v) ∈ row') :
    valueAt row c = valueAt row' c' := by
  by_cases hstored : ∃ v, (c, v) ∈ row
  · obtain ⟨v, hv⟩ := hstored
    rw [valueAt_of_mem hrow hv, valueAt_of_mem hrow' ((h v).1 hv)]
  · rw [not_exists] at hstored
    rw [valueAt_of_not_mem hstored, valueAt_of_not_mem fun v hv => hstored v ((h v).2 hv)]

theorem valueAt_filter {c' : ℕ} (hlt : c < c') :
    valueAt (row.filter (c < ·.1)) c' = valueAt row c' := by
  have hsame : lookup Prod.fst c' (row.filter (c < ·.1)) = lookup Prod.fst c' row := by
    unfold lookup
    rw [List.find?_filter]
    congr 1
    funext e
    by_cases he : e.1 = c'
    · simp [he, hlt]
    · simp [he]
  rw [valueAt, hsame, valueAt]

/-- A side of the merge loses the column that is merged, and only that. -/
theorem takeColumn_eq (hrow : row.Pairwise fun e f => e.1 < f.1) (hlt : c < usizeMax)
    (hle : c ≤ nextColumn row) :
    takeColumn c row = some (valueAt row c, row.filter (c < ·.1)) := by
  cases row with
  | nil =>
    have hne : usizeMax ≠ c := Nat.ne_of_gt hlt
    simp [takeColumn, nextColumn, hne, valueAt, lookup]
  | cons e rest =>
    obtain ⟨hfirst, -⟩ := List.pairwise_cons.1 hrow
    have hnext : nextColumn (e :: rest) = e.1 := rfl
    rw [hnext] at hle
    by_cases heq : e.1 = c
    · have hkept : (e :: rest).filter (c < ·.1) = rest := by
        rw [List.filter_cons_of_neg (by simp [heq]), List.filter_eq_self]
        intro f hf
        have := hfirst f hf
        simp only [decide_eq_true_eq]
        omega
      have hvalue : valueAt (e :: rest) c = e.2 :=
        valueAt_of_mem hrow (by rw [← heq]; exact List.mem_cons_self)
      rw [takeColumn, hnext, if_pos heq, hkept, hvalue]
    · have hkept : (e :: rest).filter (c < ·.1) = e :: rest := by
        rw [List.filter_eq_self]
        intro f hf
        have hfe : e.1 ≤ f.1 := by
          rcases List.mem_cons.1 hf with rfl | hf
          · exact Nat.le_refl _
          · exact Nat.le_of_lt (hfirst f hf)
        simp only [decide_eq_true_eq]
        omega
      have hvalue : valueAt (e :: rest) c = 0 := by
        apply valueAt_of_not_mem
        intro v hmem
        have := List.mem_filter.1 (hkept.symm ▸ hmem)
        simp at this
      rw [takeColumn, hnext, if_neg heq, hkept, hvalue]

omit [Zero V] in
/-- The next column bounds what is left from below. -/
theorem nextColumn_le (hrow : row.Pairwise fun e f => e.1 < f.1) {e : ℕ × V} (he : e ∈ row) :
    nextColumn row ≤ e.1 := by
  cases row with
  | nil => exact absurd he List.not_mem_nil
  | cons f rest =>
    rcases List.mem_cons.1 he with rfl | he
    · exact Nat.le_refl _
    · exact Nat.le_of_lt ((List.pairwise_cons.1 hrow).1 e he)

omit [Zero V] in
theorem nextColumn_mem (hne : row ≠ []) : ∃ v, (nextColumn row, v) ∈ row := by
  cases row with
  | nil => exact absurd rfl hne
  | cons e rest => exact ⟨e.2, List.mem_cons_self⟩

omit [Zero V] in
/-- While one of the rows is not used up, the smaller next column is stored. -/
theorem exists_next (hne : as ≠ [] ∨ bs ≠ []) (hasmax : ∀ e ∈ as, e.1 < usizeMax)
    (hbsmax : ∀ e ∈ bs, e.1 < usizeMax) :
    (∃ x, (min (nextColumn as) (nextColumn bs), x) ∈ as) ∨
      ∃ y, (min (nextColumn as) (nextColumn bs), y) ∈ bs := by
  have hend : nextColumn ([] : List (ℕ × V)) = usizeMax := rfl
  rcases Nat.lt_or_ge (nextColumn bs) (nextColumn as) with hlt | hle
  · right
    rw [Nat.min_eq_right (Nat.le_of_lt hlt)]
    apply nextColumn_mem
    rintro rfl
    obtain ⟨x, hx⟩ := nextColumn_mem (hne.resolve_right (by simp))
    have := hasmax _ hx
    rw [hend] at hlt
    omega
  · left
    rw [Nat.min_eq_left hle]
    apply nextColumn_mem
    rintro rfl
    obtain ⟨y, hy⟩ := nextColumn_mem (hne.resolve_left (by simp))
    have := hbsmax _ hy
    rw [hend] at hle
    omega

omit [Zero V] in
/-- A row that stores a column is longer than what lies behind the column. -/
theorem length_filter_lt {v : V} (h : (c, v) ∈ row) : (row.filter (c < ·.1)).length < row.length :=
  List.length_filter_lt_length_iff_exists.2 ⟨_, h, by simp⟩

/-- A merged row has the columns of both rows in ascending order, each with the midpoint of
its two values. -/
structure Merged (midpoint : V → V → V) (as bs row : List (ℕ × V)) : Prop where
  ascending : row.Pairwise fun e f => e.1 < f.1
  mem : ∀ c v, (c, v) ∈ row ↔ ((∃ x, (c, x) ∈ as) ∨ ∃ y, (c, y) ∈ bs) ∧
    v = midpoint (valueAt as c) (valueAt bs c)

variable {midpoint : V → V → V}

theorem merged_nil : Merged midpoint [] [] [] := by
  constructor
  · exact List.Pairwise.nil
  · simp

theorem Merged.cons {later : List (ℕ × V)} (hmem : (∃ x, (c, x) ∈ as) ∨ ∃ y, (c, y) ∈ bs)
    (has : ∀ e ∈ as, c ≤ e.1) (hbs : ∀ e ∈ bs, c ≤ e.1)
    (h : Merged midpoint (as.filter (c < ·.1)) (bs.filter (c < ·.1)) later) :
    Merged midpoint as bs ((c, midpoint (valueAt as c) (valueAt bs c)) :: later) := by
  have hlater : ∀ c' v, (c', v) ∈ later ↔ c < c' ∧ ((∃ x, (c', x) ∈ as) ∨ ∃ y, (c', y) ∈ bs) ∧
      v = midpoint (valueAt as c') (valueAt bs c') := by
    intro c' v
    rw [h.mem]
    simp only [List.mem_filter, decide_eq_true_eq]
    by_cases hlt : c < c'
    · simp [hlt, valueAt_filter hlt]
    · simp [hlt]
  constructor
  · rw [List.pairwise_cons]
    exact ⟨fun e he => ((hlater e.1 e.2).1 he).1, h.ascending⟩
  · intro c' v
    rw [List.mem_cons, hlater, Prod.mk.injEq]
    constructor
    · rintro (⟨rfl, rfl⟩ | ⟨-, hmem', hv⟩)
      · exact ⟨hmem, rfl⟩
      · exact ⟨hmem', hv⟩
    · rintro ⟨hmem', hv⟩
      have hle : c ≤ c' := by
        rcases hmem' with ⟨x, hx⟩ | ⟨y, hy⟩
        · exact has _ hx
        · exact hbs _ hy
      rcases Nat.lt_or_eq_of_le hle with hlt | rfl
      · exact Or.inr ⟨hlt, hmem', hv⟩
      · exact Or.inl ⟨rfl, hv⟩

/-- The merge ends after at most as many steps as there are entries. -/
theorem mergeRows_merged {steps : ℕ} (hsteps : as.length + bs.length ≤ steps)
    (has : as.Pairwise fun e f => e.1 < f.1) (hbs : bs.Pairwise fun e f => e.1 < f.1)
    (hasmax : ∀ e ∈ as, e.1 < usizeMax) (hbsmax : ∀ e ∈ bs, e.1 < usizeMax) :
    ∃ row, mergeRows midpoint steps as bs = some row ∧ Merged midpoint as bs row := by
  induction steps generalizing as bs with
  | zero =>
    have hasnil : as = [] := List.eq_nil_of_length_eq_zero (by omega)
    have hbsnil : bs = [] := List.eq_nil_of_length_eq_zero (by omega)
    subst hasnil hbsnil
    exact ⟨[], rfl, merged_nil⟩
  | succ steps ih =>
    unfold mergeRows
    split
    case isTrue hempty =>
      simp only [Bool.and_eq_true, List.isEmpty_iff] at hempty
      obtain ⟨rfl, rfl⟩ := hempty
      exact ⟨[], rfl, merged_nil⟩
    case isFalse hne =>
      let c := min (nextColumn as) (nextColumn bs)
      have hleft : as ≠ [] ∨ bs ≠ [] := by
        by_contra hboth
        push Not at hboth
        exact hne (by simp [hboth])
      have hmem : (∃ x, (c, x) ∈ as) ∨ ∃ y, (c, y) ∈ bs := exists_next hleft hasmax hbsmax
      have hlt : c < usizeMax := by
        rcases hmem with ⟨x, hx⟩ | ⟨y, hy⟩
        · exact hasmax _ hx
        · exact hbsmax _ hy
      have hasle : c ≤ nextColumn as := Nat.min_le_left _ _
      have hbsle : c ≤ nextColumn bs := Nat.min_le_right _ _
      have hshorter : (as.filter (c < ·.1)).length + (bs.filter (c < ·.1)).length ≤ steps := by
        have hasle := List.length_filter_le (c < ·.1) as
        have hbsle := List.length_filter_le (c < ·.1) bs
        rcases hmem with ⟨x, hx⟩ | ⟨y, hy⟩
        · have := length_filter_lt hx
          omega
        · have := length_filter_lt hy
          omega
      obtain ⟨later, hlater, hmerged⟩ := ih hshorter (has.filter _) (hbs.filter _)
        (fun e he => hasmax e (List.mem_of_mem_filter he))
        fun e he => hbsmax e (List.mem_of_mem_filter he)
      refine ⟨_, ?_, hmerged.cons hmem (fun e he => hasle.trans (nextColumn_le has he))
        fun e he => hbsle.trans (nextColumn_le hbs he)⟩
      have hstepas := takeColumn_eq has hlt hasle
      have hstepbs := takeColumn_eq hbs hlt hbsle
      simp only [c] at hstepas hstepbs hlater
      simp only [hstepas, hstepbs, hlater, Option.bind_eq_bind, Option.bind_some]
      rfl

namespace Csr

/-- The value of a matrix at a coordinate, zero when it is not stored. -/
def valueAt (A : Csr V) (r c : ℕ) : V :=
  ((A.row r).map fun row => Sparse.valueAt (row.1.zip row.2) c).getD 0

variable {A : Csr V}

theorem valueAt_rows {rows : List (List (ℕ × V))} (hrows : A = ofRows A.ncols rows) (r c : ℕ) :
    A.valueAt r c = Sparse.valueAt (rowAt rows r) c := by
  by_cases hr : r < rows.length
  · rw [valueAt, row_of_rows hrows hr, Option.map_some, Option.getD_some, zip_map_fst_snd]
  · rw [valueAt, row_of_le hrows (Nat.le_of_not_lt hr), rowAt_of_le (Nat.le_of_not_lt hr)]
    rfl

theorem exists_merged {ncols ncols' : ℕ} {rows cols : List (List (ℕ × V))} {r : ℕ}
    (hr : r < rows.length) (hr' : r < cols.length) (hrows : ∀ row ∈ rows, RowOk ncols row)
    (hcols : ∀ row ∈ cols, RowOk ncols' row) (hfits : ncols ≤ usizeMax) (hfits' : ncols' ≤ usizeMax)
    (midpoint : V → V → V) : ∃ row, mergeRows midpoint
        ((rowAt rows r).length + (rowAt cols r).length) (rowAt rows r) (rowAt cols r) = some row ∧
      Merged midpoint (rowAt rows r) (rowAt cols r) row := by
  obtain ⟨hascend, hbound⟩ := rowAt_ok hrows hr
  obtain ⟨hascend', hbound'⟩ := rowAt_ok hcols hr'
  apply mergeRows_merged (Nat.le_refl _)
  · exact List.pairwise_map.1 (List.isChain_iff_pairwise.1 hascend)
  · exact List.pairwise_map.1 (List.isChain_iff_pairwise.1 hascend')
  · exact fun e he => Nat.lt_of_lt_of_le (hbound e he) hfits
  · exact fun e he => Nat.lt_of_lt_of_le (hbound' e he) hfits'

theorem rowOk_merged {n : ℕ} {midpoint : V → V → V} {as bs row : List (ℕ × V)}
    (h : Merged midpoint as bs row) (has : RowOk n as) (hbs : RowOk n bs) : RowOk n row := by
  constructor
  · exact (List.pairwise_map.2 h.ascending).isChain
  · rintro ⟨c, v⟩ hmem
    rcases ((h.mem c v).1 hmem).1 with ⟨x, hx⟩ | ⟨y, hy⟩
    · exact has.2 (c, x) hx
    · exact hbs.2 (c, y) hy

/-- Symmetrization of a square canonical matrix: the entries stored on either side of the
diagonal, each with the midpoint of the two values. -/
theorem Canonical.symmetrize (hA : A.Canonical) (hsquare : A.nrows = A.ncols)
    (hfits : A.ncols ≤ usizeMax) (midpoint : V → V → V) : ∃ M, A.symmetrize midpoint = some M ∧
    M.Canonical ∧ M.nrows = A.nrows ∧ M.ncols = A.ncols ∧ ∀ i j v, M.HasEntry i j v ↔
      ((∃ x, A.HasEntry i j x) ∨ ∃ y, A.HasEntry j i y) ∧
        v = midpoint (A.valueAt i j) (A.valueAt j i) := by
  obtain ⟨rows, hrows, hok⟩ := hA.exists_rows
  obtain ⟨T, hT, hTcanonical, hTnrows, hTncols, hTstores⟩ := hA.transpose
  obtain ⟨cols, hcols, hcolsok⟩ := hTcanonical.exists_rows
  have hlength : rows.length = A.nrows := by rw [hrows]; rfl
  have hlength' : cols.length = A.nrows := by
    have hcount : T.nrows = cols.length := by rw [hcols]; rfl
    rw [← hcount, hTnrows, hsquare]
  have hrow := fun r (hr : r < A.nrows) => row_of_rows hrows (hlength ▸ hr)
  have hTrow := fun r (hr : r < A.nrows) => row_of_rows hcols (hlength' ▸ hr)
  have hmerge : ∀ r, ∃ row, r < A.nrows → mergeRows midpoint
        ((rowAt rows r).length + (rowAt cols r).length) (rowAt rows r) (rowAt cols r) = some row ∧
      Merged midpoint (rowAt rows r) (rowAt cols r) row := by
    intro r
    by_cases hr : r < A.nrows
    · obtain ⟨row, hrow⟩ := exists_merged (hlength ▸ hr) (hlength' ▸ hr) hok hcolsok hfits
        (by rw [hTncols, hsquare]; exact hfits) midpoint
      exact ⟨row, fun _ => hrow⟩
    · exact ⟨[], fun h => absurd h hr⟩
  choose merged hmerged using hmerge
  let result := (List.range A.nrows).map merged
  have hresult : ∀ row ∈ result, RowOk A.nrows row := by
    intro row hrow
    obtain ⟨r, hr, rfl⟩ := List.mem_map.1 hrow
    have hr := List.mem_range.1 hr
    apply rowOk_merged (hmerged r hr).2
    · rw [hsquare]
      exact rowAt_ok hok (hlength ▸ hr)
    · have hcolok := rowAt_ok hcolsok (hlength' ▸ hr)
      rwa [hTncols] at hcolok
  have hloop : ((List.range A.nrows).mapM fun r => do
      let a ← A.row r
      let b ← T.row r
      mergeRows midpoint (a.1.length + b.1.length) (a.1.zip a.2) (b.1.zip b.2)) = some result := by
    apply mapM_some
    intro r hr
    have hr := List.mem_range.1 hr
    simp only [hrow r hr, hTrow r hr, Option.bind_eq_bind, Option.bind_some, List.length_map,
      zip_map_fst_snd]
    exact (hmerged r hr).1
  have hcount : (ofRows A.nrows result).nrows = A.nrows := by simp [ofRows, result]
  refine ⟨ofRows A.nrows result, ?_, canonical_ofRows hresult, hcount, hsquare, ?_⟩
  · have hparts := @fromParts_ofRows V A.nrows result _ rfl hresult
    rw [hcount] at hparts
    have hguard : (guard (A.nrows = A.ncols) : Option Unit) = some () := guard_eq_some.2 hsquare
    unfold Csr.symmetrize
    rw [hguard, Option.bind_eq_bind, Option.bind_some, hT, Option.bind_eq_bind, Option.bind_some,
      hloop]
    exact hparts
  · intro i j v
    rw [stores_ofRows]
    by_cases hi : i < A.nrows
    · have hflipped : Sparse.valueAt (rowAt cols i) j = Sparse.valueAt (rowAt rows j) i := by
        apply valueAt_congr (pairwise_rowAt hcolsok) (pairwise_rowAt hok)
        intro x
        rw [← stores_rows hcols, ← stores_rows hrows, hTstores]
      rw [rowAt_of_lt (by simpa [result] using hi)]
      simp only [result, List.getElem_map, List.getElem_range]
      rw [(hmerged i hi).2.mem, hflipped, valueAt_rows hrows, valueAt_rows hrows]
      simp only [← stores_rows hrows, ← stores_rows hcols, hTstores]
    · have hempty : rowAt result i = [] := rowAt_of_le (by simpa [result] using hi)
      rw [hempty]
      constructor
      · intro hmem
        exact absurd hmem List.not_mem_nil
      · rintro ⟨⟨x, hx⟩ | ⟨y, hy⟩, -⟩
        · exact absurd (hA.stores_lt hx).1 hi
        · exact absurd (hsquare ▸ (hA.stores_lt hy).2) hi

end Csr

end FrankenSim.Sparse
