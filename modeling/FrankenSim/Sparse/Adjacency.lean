import FrankenSim.Library.EliminationTree
import FrankenSim.Sparse.MinimumDegree

/-!
# The pattern graph

Two different indices are adjacent when the matrix stores an entry at one of the two
places they name. The ordering starts from the neighbour lists of this graph.
-/
namespace FrankenSim.Sparse

open Library

variable {V : Type}

theorem mem_sortDedup {l : List ℕ} {v : ℕ} : v ∈ sortDedup l ↔ v ∈ l := by
  rw [sortDedup, List.mem_dedup, List.mem_insertionSort]

theorem nodup_sortDedup (l : List ℕ) : (sortDedup l).Nodup := List.nodup_dedup _

@[simp] theorem push_self (lists : ℕ → List ℕ) (i v : ℕ) : push lists i v i = lists i ++ [v] :=
  if_pos rfl

theorem push_of_ne {lists : ℕ → List ℕ} {i j v : ℕ} (h : j ≠ i) : push lists i v j = lists j :=
  if_neg h

theorem mem_push {lists : ℕ → List ℕ} {i j v w : ℕ} :
    w ∈ push lists i v j ↔ w ∈ lists j ∨ j = i ∧ w = v := by
  by_cases h : j = i
  · subst h
    simp
  · simp [push_of_ne h, h]

theorem foldl_put {α : Type} (xs : ℕ → α) (ks : List ℕ) (a : α) :
    ks.foldl (fun xs k => put xs k a) xs = fun i => if i ∈ ks then a else xs i := by
  induction ks using List.reverseRecOn with
  | nil => simp
  | append_singleton ks k ih =>
    rw [List.foldl_concat, ih]
    funext i
    by_cases hi : i = k
    · subst hi
      simp
    · simp [hi]

namespace Csr

def Stored (A : Csr V) (r c : ℕ) : Prop := ∃ cols vals, A.row r = some (cols, vals) ∧ c ∈ cols

def patternGraph (A : Csr V) : SimpleGraph ℕ where
  Adj i j := i ≠ j ∧ (A.Stored i j ∨ A.Stored j i)
  symm := ⟨fun _ _ h => ⟨h.1.symm, h.2.symm⟩⟩
  loopless := ⟨fun _ h => h.1 rfl⟩

variable {A : Csr V} {r c n : ℕ}

/-- The rows of a canonical matrix are there, ascending and in range. -/
theorem Canonical.exists_row (hA : A.Canonical) (hr : r < A.nrows) :
    ∃ cols vals, A.row r = some (cols, vals) ∧ cols.Pairwise (· < ·) ∧ ∀ c ∈ cols, c < A.ncols := by
  obtain ⟨rows, heq, hrows⟩ := hA.exists_rows
  have hlength : A.nrows = rows.length := by rw [heq]; rfl
  have hrow := rowAt_ok hrows (hlength ▸ hr)
  refine ⟨(rowAt rows r).map Prod.fst, (rowAt rows r).map Prod.snd, ?_, ?_, ?_⟩
  · rw [heq]
    exact row_rowAt (hlength ▸ hr)
  · exact List.isChain_iff_pairwise.mp hrow.1
  · intro c hc
    obtain ⟨p, hp, rfl⟩ := List.mem_map.mp hc
    exact hrow.2 p hp

theorem Canonical.lt_of_row (hA : A.Canonical) {entries : List ℕ × List V}
    (h : A.row r = some entries) : r < A.nrows := by
  obtain ⟨rows, heq, -⟩ := hA.exists_rows
  simp only [row, Option.bind_eq_bind, Option.bind_eq_some_iff] at h
  obtain ⟨-, -, hi, hhi, -⟩ := h
  rw [heq] at hhi ⊢
  have hlt := (List.getElem?_eq_some_iff.mp hhi).1
  rw [show (ofRows A.ncols rows).rowPtr = offsets rows from rfl, length_offsets] at hlt
  exact Nat.lt_of_succ_lt_succ hlt

theorem stored_iff {cols : List ℕ} {vals : List V} (h : A.row r = some (cols, vals)) :
    A.Stored r c ↔ c ∈ cols := by
  constructor
  · intro hstored
    obtain ⟨cols', vals', hrow, hc⟩ := hstored
    rw [h] at hrow
    cases hrow
    exact hc
  · exact fun hc => ⟨cols, vals, h, hc⟩

theorem Canonical.lt_of_stored (hA : A.Canonical) (h : A.Stored r c) :
    r < A.nrows ∧ c < A.ncols := by
  obtain ⟨cols, vals, hrow, hc⟩ := h
  have hr := hA.lt_of_row hrow
  obtain ⟨cols', vals', hrow', -, hlt⟩ := hA.exists_row hr
  rw [hrow] at hrow'
  cases hrow'
  exact ⟨hr, hlt c hc⟩

theorem Canonical.contains_eq (hA : A.Canonical) (hr : r < A.nrows) :
    ∃ b, A.contains r c = some b ∧ (b = true ↔ A.Stored r c) := by
  obtain ⟨cols, vals, hrow, hsorted, -⟩ := hA.exists_row hr
  refine ⟨(binarySearch cols c).isSome, ?_, ?_⟩
  · rw [contains, hrow]
    rfl
  · rw [stored_iff hrow, Option.isSome_iff_exists, List.mem_iff_getElem?]
    simp only [binarySearch_eq_some hsorted]

theorem mem_foldl_push {cols : List ℕ} {adj : ℕ → List ℕ} {i v : ℕ} :
    v ∈ cols.foldl (fun adj c => if c ≠ r then push adj r c else adj) adj i ↔
      v ∈ adj i ∨ i = r ∧ v ∈ cols ∧ v ≠ r := by
  induction cols generalizing adj with
  | nil => simp
  | cons c cols ih =>
    rw [List.foldl_cons, ih]
    by_cases hc : c ≠ r
    · rw [if_pos hc, mem_push]
      grind
    · rw [if_neg hc]
      grind

/-- The first pass collects the rows. -/
theorem Canonical.foldlM_pushRow (hA : A.Canonical) (hn : n ≤ A.nrows) :
    ∃ adj, (List.range n).foldlM A.pushRow (fun _ => []) = some adj ∧
      ∀ i v, v ∈ adj i ↔ i < n ∧ v ≠ i ∧ A.Stored i v := by
  induction n with
  | zero => exact ⟨fun _ => [], rfl, by simp⟩
  | succ n ih =>
    obtain ⟨adj, hadj, hmem⟩ := ih (Nat.le_of_succ_le hn)
    obtain ⟨cols, vals, hrow, -⟩ := hA.exists_row hn
    refine ⟨cols.foldl (fun adj c => if c ≠ n then push adj n c else adj) adj, ?_, ?_⟩
    · rw [List.range_succ, List.foldlM_append, hadj]
      change A.pushRow adj n >>= _ = _
      rw [pushRow, hrow]
      rfl
    · intro i v
      rw [mem_foldl_push, hmem, ← stored_iff hrow]
      grind

theorem Canonical.foldlM_pushMirror (hA : A.Canonical) {cols : List ℕ}
    (hcols : ∀ c ∈ cols, c < A.nrows) (adj : ℕ → List ℕ) :
    ∃ adj', cols.foldlM (A.pushMirror r) adj = some adj' ∧
      ∀ i v, v ∈ adj' i ↔ v ∈ adj i ∨ i ∈ cols ∧ i ≠ r ∧ v = r ∧ ¬ A.Stored i r := by
  induction cols generalizing adj with
  | nil => exact ⟨adj, rfl, by simp⟩
  | cons c cols ih =>
    have hc := hcols c List.mem_cons_self
    have htail : ∀ c ∈ cols, c < A.nrows := fun c hc => hcols c (List.mem_cons_of_mem _ hc)
    by_cases hcr : c ≠ r
    · obtain ⟨b, hb, hiff⟩ := hA.contains_eq (c := r) hc
      obtain ⟨adj', hadj, hmem⟩ := ih htail (if b then adj else push adj c r)
      refine ⟨adj', ?_, ?_⟩
      · rw [List.foldlM_cons, pushMirror, if_pos hcr, hb]
        exact hadj
      · intro i v
        rw [hmem]
        cases b with
        | true => grind
        | false =>
          rw [if_neg Bool.false_ne_true, mem_push]
          grind
    · obtain ⟨adj', hadj, hmem⟩ := ih htail adj
      refine ⟨adj', ?_, ?_⟩
      · rw [List.foldlM_cons, pushMirror, if_neg hcr]
        exact hadj
      · grind

/-- The second pass adds the missing mirror images. -/
theorem Canonical.foldlM_pushMirrors (hA : A.Canonical) (hsq : A.nrows = A.ncols)
    (hn : n ≤ A.nrows) (adj : ℕ → List ℕ) :
    ∃ adj', (List.range n).foldlM A.pushMirrors adj = some adj' ∧
      ∀ i v, v ∈ adj' i ↔ v ∈ adj i ∨ v < n ∧ A.Stored v i ∧ i ≠ v ∧ ¬ A.Stored i v := by
  induction n with
  | zero => exact ⟨adj, rfl, by simp⟩
  | succ n ih =>
    obtain ⟨mid, hmid, hmem⟩ := ih (Nat.le_of_succ_le hn)
    obtain ⟨cols, vals, hrow, -, hlt⟩ := hA.exists_row hn
    obtain ⟨adj', hadj, hmem'⟩ := hA.foldlM_pushMirror (r := n) (hsq ▸ hlt) mid
    refine ⟨adj', ?_, ?_⟩
    · rw [List.range_succ, List.foldlM_append, hmid]
      change A.pushMirrors mid n >>= _ = _
      rw [pushMirrors, hrow]
      change cols.foldlM (A.pushMirror n) mid >>= _ = _
      rw [hadj]
      rfl
    · intro i v
      rw [hmem', hmem, ← stored_iff hrow]
      grind

theorem Canonical.adjacency_eq (hA : A.Canonical) (hsq : A.nrows = A.ncols) :
    ∃ adj, A.adjacency = some adj ∧
      ∀ i < A.nrows, (adj i).Nodup ∧ ∀ v, v ∈ adj i ↔ A.patternGraph.Adj i v := by
  obtain ⟨rows, hrows, hmem⟩ := hA.foldlM_pushRow (Nat.le_refl A.nrows)
  obtain ⟨adj, hadj, hmem'⟩ := hA.foldlM_pushMirrors hsq (Nat.le_refl A.nrows) rows
  refine ⟨fun r => sortDedup (adj r), ?_, ?_⟩
  · rw [adjacency, hrows]
    change (List.range A.nrows).foldlM A.pushMirrors rows >>= _ = _
    rw [hadj]
    rfl
  · intro i hi
    refine ⟨nodup_sortDedup _, ?_⟩
    intro v
    have hv : A.Stored v i → v < A.nrows := fun h => (hA.lt_of_stored h).1
    rw [mem_sortDedup, hmem', hmem, patternGraph]
    grind

end Csr

end FrankenSim.Sparse
