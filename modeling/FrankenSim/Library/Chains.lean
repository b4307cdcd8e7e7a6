import Mathlib.Data.Finsupp.Basic
import Mathlib.LinearAlgebra.Finsupp.LinearCombination

/-!
# Chains over cells with signed faces

A list of incidences names the faces of every cell with integer coefficients. The
boundary is the linear map on chains that it generates. When the boundary squares to
zero, it still does on the cells of a set that is closed under faces, less another
such set.
-/
namespace FrankenSim.Library.Chains

open Finsupp

variable {E C : Type*} [DecidableEq C] (upper lower : E → C) (sign : E → ℤ)

/-- The boundary of one cell. -/
noncomputable def cellBoundary (l : List E) (c : C) : C →₀ ℤ :=
  ((l.filter fun e => upper e = c).map fun e => single (lower e) (sign e)).sum

/-- The boundary of a chain. -/
noncomputable def boundary (l : List E) : (C →₀ ℤ) →ₗ[ℤ] C →₀ ℤ :=
  linearCombination ℤ (cellBoundary upper lower sign l)

/-- Every cell of a set has its faces in the set. -/
def ClosedUnder (l : List E) (X : Set C) : Prop := ∀ e ∈ l, upper e ∈ X → lower e ∈ X

variable {upper lower sign} {l l' : List E} {c a b : C}

theorem sum_single_apply (es : List E) (a : C) :
    ((es.map fun e => single (lower e) (sign e)).sum : C →₀ ℤ) a =
      ((es.filter fun e => lower e = a).map sign).sum := by
  induction es with
  | nil => rfl
  | cons e es ih =>
    rw [List.map_cons, List.sum_cons, Finsupp.add_apply, ih, single_apply]
    by_cases h : lower e = a
    · rw [List.filter_cons_of_pos (by simpa using h), List.map_cons, List.sum_cons, if_pos h]
    · rw [List.filter_cons_of_neg (by simpa using h), if_neg h, zero_add]

/-- A coefficient is the sum of the signs between its two cells. -/
theorem cellBoundary_apply (l : List E) (c a : C) :
    cellBoundary upper lower sign l c a =
      (((l.filter fun e => upper e = c).filter fun e => lower e = a).map sign).sum :=
  sum_single_apply _ a

theorem cellBoundary_perm (h : l.Perm l') (c : C) :
    cellBoundary upper lower sign l c = cellBoundary upper lower sign l' c :=
  ((h.filter _).map _).sum_eq

theorem boundary_perm (h : l.Perm l') :
    boundary upper lower sign l = boundary upper lower sign l' := by
  unfold boundary
  rw [funext (cellBoundary_perm h)]

/-- A coefficient other than zero comes from an incidence. -/
theorem exists_incidence (h : cellBoundary upper lower sign l c a ≠ 0) :
    ∃ e ∈ l, upper e = c ∧ lower e = a := by
  by_contra hnone
  push Not at hnone
  apply h
  rw [cellBoundary_apply, List.filter_eq_nil_iff.2, List.map_nil, List.sum_nil]
  intro e he
  obtain ⟨hmem, hupper⟩ := List.mem_filter.1 he
  simpa using hnone e hmem (by simpa using hupper)

theorem boundary_cell (l : List E) (c : C) :
    boundary upper lower sign l (single c 1) = cellBoundary upper lower sign l c := by
  rw [boundary, linearCombination_single, one_smul]

/-- The twofold boundary of a cell, face by face. -/
theorem boundary_cellBoundary (l : List E) (c : C) :
    boundary upper lower sign l (cellBoundary upper lower sign l c) =
      ((l.filter fun e => upper e = c).map fun e =>
        sign e • cellBoundary upper lower sign l (lower e)).sum := by
  rw [cellBoundary, map_list_sum, List.map_map]
  congr 1
  apply List.map_congr_left
  intro e _
  rw [Function.comp_apply, boundary, linearCombination_single]

theorem comp_self_eq_zero_iff :
    (boundary upper lower sign l).comp (boundary upper lower sign l) = 0 ↔
      ∀ c, boundary upper lower sign l (cellBoundary upper lower sign l c) = 0 := by
  constructor
  · intro h c
    rw [← boundary_cell, ← LinearMap.comp_apply, h, LinearMap.zero_apply]
  · intro h
    apply Finsupp.lhom_ext'
    intro c
    apply LinearMap.ext_ring
    rw [LinearMap.comp_apply, LinearMap.comp_apply, lsingle_apply, boundary_cell, h]
    rfl

/-- Over the faces of a cell in one closed set and outside another, the twofold boundary
keeps its coefficients outside the other set. -/
theorem sum_relative (hsquare : (boundary upper lower sign l).comp (boundary upper lower sign l) = 0)
    {X A : Set C} (hX : ClosedUnder upper lower l X) (hA : ClosedUnder upper lower l A)
    (hc : c ∈ X) (ha : a ∉ A) {M : Finset C}
    (hM : ∀ b, b ∈ X → b ∉ A → cellBoundary upper lower sign l c b ≠ 0 → b ∈ M) :
    ∑ b ∈ M, cellBoundary upper lower sign l b a * cellBoundary upper lower sign l c b = 0 := by
  have hzero := DFunLike.congr_fun (comp_self_eq_zero_iff.1 hsquare c) a
  rw [boundary, linearCombination_apply, Finsupp.sum, Finsupp.finsetSum_apply,
    Finsupp.zero_apply] at hzero
  set faces := (cellBoundary upper lower sign l c).support
  rw [← Finset.sum_subset (@Finset.inter_subset_right C _ faces M),
    Finset.sum_subset Finset.inter_subset_left]
  · rw [← hzero]
    apply Finset.sum_congr rfl
    intro b _
    rw [Finsupp.smul_apply, smul_eq_mul, mul_comm]
  · intro b hb hnot
    have hcoefficient := Finsupp.mem_support_iff.1 hb
    obtain ⟨e, he, rfl, rfl⟩ := exists_incidence hcoefficient
    by_contra hproduct
    have hinner := left_ne_zero_of_mul hproduct
    obtain ⟨f, hf, hupper, rfl⟩ := exists_incidence hinner
    apply hnot
    apply Finset.mem_inter.2
    refine ⟨hb, hM _ (hX e he hc) ?_ hcoefficient⟩
    intro hin
    exact ha (hA f hf (hupper ▸ hin))
  · intro b hb hnot
    have hnone : cellBoundary upper lower sign l c b = 0 := by
      by_contra h
      exact hnot (Finset.mem_inter.2 ⟨Finsupp.mem_support_iff.2 h, hb⟩)
    rw [hnone, mul_zero]

end FrankenSim.Library.Chains
