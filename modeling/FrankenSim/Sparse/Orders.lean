import FrankenSim.Library.Scoped
import FrankenSim.Sparse.ColumnStructure
import FrankenSim.Sparse.Postorder

/-!
# Orders of elimination

An order of the indices renames the pattern graph; its inverse is read off position by
position. The lower adjacency, the tree and the column structures are those of the renamed
graph, and the refinement by the postorder renames it once more along its tree.
-/
namespace FrankenSim.Sparse

open Library

variable {V : Type}

structure IsOrder (n : ℕ) (perm : List ℕ) (f : ℕ ≃ ℕ) : Prop where
  length_eq : perm.length = n
  lt_iff : ∀ k, f k < n ↔ k < n
  getElem? : ∀ k < n, perm[k]? = some (f k)

theorem inversePerm_concat (perm : List ℕ) (o : ℕ) :
    inversePerm (perm ++ [o]) = put (inversePerm perm) o perm.length := by
  rw [inversePerm, List.zipIdx_append, List.foldl_append, ← inversePerm]
  simp

theorem inversePerm_eq {perm : List ℕ} (h : perm.Nodup) {k o : ℕ} (hk : perm[k]? = some o) :
    inversePerm perm o = k := by
  induction perm using List.reverseRecOn with
  | nil => cases hk
  | append_singleton perm a ih =>
    have hnot : a ∉ perm := by
      intro hmem
      exact List.disjoint_of_nodup_append h hmem (List.mem_singleton_self a)
    rw [inversePerm_concat, put]
    obtain hlt | heq | hgt := Nat.lt_trichotomy k perm.length
    · rw [List.getElem?_append_left hlt] at hk
      have hne : o ≠ a := fun heq => hnot (heq ▸ List.mem_of_getElem? hk)
      rw [Function.update_of_ne hne]
      exact ih (List.nodup_append.mp h).1 hk
    · subst heq
      rw [List.getElem?_append_right (Nat.le_refl _), Nat.sub_self] at hk
      cases hk
      exact Function.update_self _ _ _
    · rw [List.getElem?_eq_none] at hk
      · cases hk
      · rw [List.length_append, List.length_singleton]
        exact hgt

theorem exists_isOrder {n : ℕ} {perm : List ℕ} (h : perm.Perm (List.range n)) :
    ∃ f, IsOrder n perm f := by
  have hlength : perm.length = n := by rw [h.length_eq, List.length_range]
  have hnodup : perm.Nodup := h.nodup_iff.mpr List.nodup_range
  have hmem : ∀ o, o ∈ perm ↔ o < n := fun o => h.mem_iff.trans List.mem_range
  have hget : ∀ k, k < n → ∃ o, perm[k]? = some o ∧ o < n := by
    intro k hk
    have hk' : k < perm.length := hlength ▸ hk
    exact ⟨perm[k], List.getElem?_eq_getElem hk', (hmem _).mp (List.getElem_mem hk')⟩
  have hfind : ∀ o, o < n → inversePerm perm o < n ∧ perm[inversePerm perm o]? = some o := by
    intro o ho
    obtain ⟨k, hk⟩ := List.mem_iff_getElem?.mp ((hmem o).mpr ho)
    rw [inversePerm_eq hnodup hk]
    exact ⟨hlength ▸ (List.getElem?_eq_some_iff.mp hk).1, hk⟩
  refine ⟨{
    toFun := fun k => if k < n then perm.getD k 0 else k
    invFun := fun o => if o < n then inversePerm perm o else o
    left_inv := ?_
    right_inv := ?_ }, hlength, ?_, ?_⟩
  · intro k
    dsimp only
    by_cases hk : k < n
    · obtain ⟨o, ho, hlt⟩ := hget k hk
      rw [if_pos hk, List.getD_eq_getElem?_getD, ho, Option.getD_some, if_pos hlt,
        inversePerm_eq hnodup ho]
    · rw [if_neg hk, if_neg hk]
  · intro o
    dsimp only
    by_cases ho : o < n
    · obtain ⟨hlt, hk⟩ := hfind o ho
      rw [if_pos ho, if_pos hlt, List.getD_eq_getElem?_getD, hk, Option.getD_some]
    · rw [if_neg ho, if_neg ho]
  · intro k
    change (if k < n then perm.getD k 0 else k) < n ↔ k < n
    by_cases hk : k < n
    · obtain ⟨o, ho, hlt⟩ := hget k hk
      rw [if_pos hk, List.getD_eq_getElem?_getD, ho, Option.getD_some]
      exact iff_of_true hlt hk
    · rw [if_neg hk]
  · intro k hk
    obtain ⟨o, ho, hlt⟩ := hget k hk
    change perm[k]? = some (if k < n then perm.getD k 0 else k)
    rw [if_pos hk, List.getD_eq_getElem?_getD, ho, Option.getD_some]

namespace IsOrder

variable {n : ℕ} {perm : List ℕ} {f : ℕ ≃ ℕ}

theorem symm_lt_iff (h : IsOrder n perm f) (o : ℕ) : f.symm o < n ↔ o < n := by
  rw [← h.lt_iff, Equiv.apply_symm_apply]

theorem eq_map (h : IsOrder n perm f) : perm = (List.range n).map f := by
  apply List.ext_getElem?
  intro k
  by_cases hk : k < n
  · rw [h.getElem? k hk, List.getElem?_map, List.getElem?_range hk, Option.map_some]
  · rw [List.getElem?_eq_none (h.length_eq ▸ Nat.le_of_not_lt hk), List.getElem?_eq_none]
    rw [List.length_map, List.length_range]
    exact Nat.le_of_not_lt hk

theorem nodup (h : IsOrder n perm f) : perm.Nodup := by
  rw [h.eq_map]
  exact List.nodup_range.map f.injective

theorem perm_range (h : IsOrder n perm f) : perm.Perm (List.range n) := by
  apply (List.perm_ext_iff_of_nodup h.nodup List.nodup_range).mpr
  intro o
  rw [h.eq_map, List.mem_map, List.mem_range]
  constructor
  · intro ho
    obtain ⟨k, hk, rfl⟩ := ho
    exact (h.lt_iff k).mpr (List.mem_range.mp hk)
  · intro ho
    exact ⟨f.symm o, List.mem_range.mpr ((h.symm_lt_iff o).mpr ho), Equiv.apply_symm_apply f o⟩

theorem inversePerm_eq (h : IsOrder n perm f) {o : ℕ} (ho : o < n) :
    inversePerm perm o = f.symm o := by
  apply Sparse.inversePerm_eq h.nodup
  rw [h.getElem? _ ((h.symm_lt_iff o).mpr ho), Equiv.apply_symm_apply]

end IsOrder

namespace Csr

variable {A : Csr V} {n : ℕ} {perm : List ℕ} {f : ℕ ≃ ℕ}

def Symmetric (A : Csr V) : Prop := ∀ r c, A.Stored r c → A.Stored c r

theorem mem_foldl_pushLower {iperm : ℕ → ℕ} {r : ℕ} {cols : List ℕ} {ladj : ℕ → List ℕ}
    {i v : ℕ} : v ∈ cols.foldl (pushLower iperm r) ladj i ↔
      v ∈ ladj i ∨ i = iperm r ∧ ∃ c ∈ cols, iperm c < iperm r ∧ v = iperm c := by
  induction cols generalizing ladj with
  | nil => simp
  | cons c cols ih =>
    rw [List.foldl_cons, ih, pushLower]
    by_cases hc : iperm c < iperm r
    · rw [if_pos hc, mem_push]
      simp only [List.mem_cons, exists_eq_or_imp]
      tauto
    · rw [if_neg hc]
      simp only [List.mem_cons, exists_eq_or_imp]
      tauto

theorem Canonical.foldlM_pushLowerRow (hA : A.Canonical) (iperm : ℕ → ℕ) {m : ℕ}
    (hm : m ≤ A.nrows) :
    ∃ ladj, (List.range m).foldlM (A.pushLowerRow iperm) (fun _ => []) = some ladj ∧
      ∀ i v, v ∈ ladj i ↔
        ∃ r < m, i = iperm r ∧ ∃ c, A.Stored r c ∧ iperm c < iperm r ∧ v = iperm c := by
  induction m with
  | zero => exact ⟨fun _ => [], rfl, by simp⟩
  | succ m ih =>
    obtain ⟨ladj, hladj, hmem⟩ := ih (Nat.le_of_succ_le hm)
    obtain ⟨cols, vals, hrow, -⟩ := hA.exists_row hm
    refine ⟨cols.foldl (pushLower iperm m) ladj, ?_, ?_⟩
    · rw [List.range_succ, List.foldlM_append, hladj]
      change A.pushLowerRow iperm ladj m >>= _ = _
      rw [pushLowerRow, hrow]
      rfl
    · intro i v
      rw [mem_foldl_pushLower, hmem]
      simp only [← stored_iff hrow]
      constructor
      · intro h
        obtain ⟨r, hr, h⟩ | ⟨hi, h⟩ := h
        · exact ⟨r, Nat.lt_succ_of_lt hr, h⟩
        · exact ⟨m, Nat.lt_succ_self m, hi, h⟩
      · intro h
        obtain ⟨r, hr, h⟩ := h
        cases Nat.lt_succ_iff_lt_or_eq.mp hr with
        | inl hlt => exact Or.inl ⟨r, hlt, h⟩
        | inr heq => exact Or.inr (heq ▸ h)

theorem Canonical.buildLowerAdj_eq (hA : A.Canonical) (hsq : A.nrows = A.ncols)
    (hsymm : A.Symmetric) (hf : IsOrder A.nrows perm f) :
    ∃ ladj, A.buildLowerAdj (inversePerm perm) = some ladj ∧
      LowerAdjacent (renamed A.patternGraph f) A.nrows ladj := by
  obtain ⟨ladj, hladj, hmem⟩ := hA.foldlM_pushLowerRow (inversePerm perm) (Nat.le_refl _)
  refine ⟨fun i => (ladj i).insertionSort (· ≤ ·), ?_, ?_⟩
  · rw [buildLowerAdj, hladj]
    rfl
  · intro i hi j
    rw [List.mem_insertionSort, hmem]
    constructor
    · intro h
      obtain ⟨r, hr, rfl, c, hstored, hlt, rfl⟩ := h
      have hc : c < A.nrows := hsq ▸ (hA.lt_of_stored hstored).2
      rw [hf.inversePerm_eq hr, hf.inversePerm_eq hc] at hlt ⊢
      refine ⟨hlt, ?_⟩
      change A.patternGraph.Adj (f (f.symm c)) (f (f.symm r))
      rw [Equiv.apply_symm_apply, Equiv.apply_symm_apply]
      refine ⟨?_, Or.inr hstored⟩
      intro heq
      rw [heq] at hlt
      exact Nat.lt_irrefl _ hlt
    · intro h
      obtain ⟨hlt, hadj⟩ := h
      have hstored : A.Stored (f i) (f j) := by
        cases hadj.2 with
        | inl h => exact hsymm _ _ h
        | inr h => exact h
      have hj : j < A.nrows := Nat.lt_trans hlt hi
      have hback : ∀ k < A.nrows, inversePerm perm (f k) = k := by
        intro k hk
        rw [hf.inversePerm_eq ((hf.lt_iff k).mpr hk), Equiv.symm_apply_apply]
      refine ⟨f i, (hf.lt_iff i).mpr hi, (hback i hi).symm, f j, hstored, ?_, (hback j hj).symm⟩
      rw [hback i hi, hback j hj]
      exact hlt

theorem Canonical.renamed_lt (hA : A.Canonical) (hsq : A.nrows = A.ncols)
    (hf : IsOrder A.nrows perm f) (i j : ℕ) (h : (renamed A.patternGraph f).Adj i j) :
    i < A.nrows := by
  apply (hf.lt_iff i).mp
  cases h.2 with
  | inl h => exact (hA.lt_of_stored h).1
  | inr h => exact hsq ▸ (hA.lt_of_stored h).2

theorem Canonical.structureOf_eq (hA : A.Canonical) (hsq : A.nrows = A.ncols)
    (hsymm : A.Symmetric) (hf : IsOrder A.nrows perm f) :
    ∃ S, A.structureOf perm = some S ∧
      (∀ j p, S.parent j = some p ↔ IsParent (renamed A.patternGraph f) j p) ∧
      ∀ j, (S.cs j).Pairwise (· < ·) ∧ ∀ i, i ∈ S.cs j ↔ Fill (renamed A.patternGraph f) j i := by
  obtain ⟨ladj, hladj, hlower⟩ := hA.buildLowerAdj_eq hsq hsymm hf
  obtain ⟨parent, hparent, hiff⟩ := etree_eq hlower (hA.renamed_lt hsq hf)
  obtain ⟨cs, hcs, hfill⟩ := colStructs_eq hiff hlower (hA.renamed_lt hsq hf)
  refine ⟨⟨parent, cs⟩, ?_, hiff, hfill⟩
  rw [structureOf, hladj]
  change (etree A.nrows ladj >>= _) = _
  rw [hparent]
  change (colStructs A.nrows ladj parent >>= _) = _
  rw [hcs]
  rfl

/-- The vertices below any vertex are the block of positions that ends with it. -/
def Postordered (G : SimpleGraph ℕ) (n : ℕ) : Prop :=
  ∀ k < n, ∃ s ≤ k, ∀ u, Ancestor G u k ↔ s ≤ u ∧ u ≤ k

theorem PostList.positions {G : SimpleGraph ℕ} {post : List ℕ} {g : ℕ ≃ ℕ} (h : PostList G post)
    (hg : IsOrder n post g) (hlt : ∀ u w, w < n → Ancestor G u w → u < n) {k : ℕ} (hk : k < n) :
    ∃ s ≤ k, ∀ u, Ancestor G (g u) (g k) ↔ s ≤ u ∧ u ≤ k := by
  have hmem : g k ∈ post := List.mem_of_getElem? (hg.getElem? k hk)
  obtain ⟨front, block, back, hpost, hblock⟩ := h (g k) hmem
  have hposition : ∀ u < n, ∀ i, post[i]? = some (g u) → i = u := by
    intro u hu i hi
    have hiu := List.getElem?_eq_some_iff.mp hi
    exact (List.getElem?_inj hiu.1 hg.nodup).mp (hi.trans (hg.getElem? u hu).symm)
  have hend : front.length + block.length = k := by
    apply hposition k hk
    rw [hpost]
    simp
  refine ⟨front.length, by omega, ?_⟩
  intro u
  constructor
  · intro hanc
    have hu : u < n := (hg.lt_iff u).mp (hlt _ _ ((hg.lt_iff k).mpr hk) hanc)
    obtain ⟨i, hi⟩ := List.mem_iff_getElem?.mp ((hblock (g u)).mpr hanc)
    have hil := (List.getElem?_eq_some_iff.mp hi).1
    rw [List.length_append, List.length_singleton] at hil
    have hiu : front.length + i = u := by
      apply hposition u hu
      rw [hpost, List.append_assoc, List.getElem?_append_right (Nat.le_add_right _ _),
        Nat.add_sub_cancel_left, List.getElem?_append_left (by simpa using hil)]
      exact hi
    omega
  · intro hu
    rw [← hblock]
    have hget := hg.getElem? u (Nat.lt_of_le_of_lt hu.2 hk)
    rw [hpost, List.append_assoc, List.getElem?_append_right hu.1, List.getElem?_append_left] at hget
    · exact List.mem_of_getElem? hget
    · rw [List.length_append, List.length_singleton]
      omega

/-- The order is refined along its tree, so that fill and tree stay the same, and the tree
is postordered. -/
theorem Canonical.finalPerm_eq (hA : A.Canonical) (hsq : A.nrows = A.ncols)
    (hsymm : A.Symmetric) (hf : IsOrder A.nrows perm f) :
    ∃ final g, A.finalPerm perm = some final ∧ IsOrder A.nrows final (g.trans f) ∧
      Respects (renamed A.patternGraph f) g ∧
      Postordered (renamed A.patternGraph (g.trans f)) A.nrows := by
  have hlt := hA.renamed_lt hsq hf
  obtain ⟨ladj, hladj, hlower⟩ := hA.buildLowerAdj_eq hsq hsymm hf
  obtain ⟨parent, hparent, hiff⟩ := etree_eq hlower hlt
  have hparentlt : ∀ j p, IsParent (renamed A.patternGraph f) j p → p < A.nrows := by
    intro j p hp
    obtain ⟨-, d, hadj, -⟩ := fill_iff_ancestor.mp hp.1
    exact hlt p d hadj.symm
  obtain ⟨post, hpost, hperm, hlist⟩ :=
    postorder_eq hiff fun j p hp => hparentlt j p ((hiff j p).mp hp)
  obtain ⟨g, hg⟩ := exists_isOrder hperm
  have hbelow : ∀ u w, w < A.nrows → Ancestor (renamed A.patternGraph f) u w → u < A.nrows :=
    fun u w hw huw => Nat.lt_of_le_of_lt (Ancestor.le huw) hw
  have hrespects : Respects (renamed A.patternGraph f) g := by
    intro j p hp
    have hk : g.symm p < A.nrows := (hg.symm_lt_iff p).mpr (hparentlt j p hp)
    obtain ⟨s, -, hblock⟩ := PostList.positions hlist hg hbelow hk
    have hj := (hblock (g.symm j)).mp (by
      rw [Equiv.apply_symm_apply, Equiv.apply_symm_apply]
      exact Relation.ReflTransGen.single hp)
    apply Nat.lt_of_le_of_ne hj.2
    intro heq
    exact Nat.ne_of_lt hp.lt (g.symm.injective heq)
  refine ⟨post.map f, g, ?_, ?_, hrespects, ?_⟩
  · rw [finalPerm, hladj]
    change (etree A.nrows ladj >>= _) = _
    rw [hparent]
    change (postorder A.nrows parent >>= _) = _
    rw [hpost]
    change post.mapM (fun k => perm[k]?) = some (post.map f)
    apply mapM_some
    intro k hk
    exact hf.getElem? k (List.mem_range.mp (hperm.mem_iff.mp hk))
  · constructor
    · rw [List.length_map, hg.length_eq]
    · intro k
      exact (hf.lt_iff (g k)).trans (hg.lt_iff k)
    · intro k hk
      rw [List.getElem?_map, hg.getElem? k hk]
      rfl
  · intro k hk
    obtain ⟨s, hs, hblock⟩ := PostList.positions hlist hg hbelow hk
    refine ⟨s, hs, ?_⟩
    intro u
    exact (hrespects.ancestor_iff (i := u) (j := k)).trans (hblock u)

end Csr

end FrankenSim.Sparse
