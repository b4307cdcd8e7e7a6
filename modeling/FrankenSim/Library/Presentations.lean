import FrankenSim.Library.DiagonalForms
import Mathlib.LinearAlgebra.Matrix.ToLin
import Mathlib.LinearAlgebra.Isomorphisms
import Mathlib.LinearAlgebra.Quotient.Basic

/-!
# Diagonal presentations of homology

The homology of two composable integer matrices is the kernel of the first modulo the
image of the second. Coordinates on the kernel in which the image is diagonal present it:
a cycle is a boundary exactly when the diagonal divides its coordinates, and the homology
is the sum of the cyclic groups of the diagonal.
-/
namespace FrankenSim.Library

open Matrix

variable {m n p q : ℕ}

theorem rectDiagonal_mulVec (δ : ℕ → ℤ) (x : Fin n → ℤ) (i : Fin m) :
    (rectDiagonal m n δ *ᵥ x) i = if h : i.val < n then δ i * x ⟨i, h⟩ else 0 := by
  simp only [mulVec, dotProduct, rectDiagonal, of_apply]
  split_ifs with h
  · rw [Finset.sum_eq_single ⟨i.val, h⟩]
    · simp
    · intro j _ hj
      have hne : i.val ≠ j.val := fun heq => hj (Fin.ext heq.symm)
      simp [hne]
    · intro hmem
      exact absurd (Finset.mem_univ _) hmem
  · apply Finset.sum_eq_zero
    intro j _
    have hne : i.val ≠ j.val := by omega
    simp [hne]

theorem mul_rectDiagonal (δ : ℕ → ℤ) (M : Matrix (Fin m) (Fin n) ℤ) (i : Fin m) (j : Fin p) :
    (M * rectDiagonal n p δ) i j = if h : j.val < n then M i ⟨j, h⟩ * δ j else 0 := by
  rw [mul_apply]
  simp only [rectDiagonal, of_apply]
  split_ifs with h
  · rw [Finset.sum_eq_single ⟨j.val, h⟩]
    · simp
    · intro k _ hk
      have hne : k.val ≠ j.val := fun heq => hk (Fin.ext heq)
      simp [hne]
    · intro hmem
      exact absurd (Finset.mem_univ _) hmem
  · apply Finset.sum_eq_zero
    intro k _
    have hne : k.val ≠ j.val := by omega
    simp [hne]

/-- The places from `r` on. -/
def later {r : ℕ} (h : r + q = n) (i : Fin q) : Fin n := ⟨r + i, by omega⟩

section Later

variable {r : ℕ} (h : r + q = n)

@[simp] theorem val_later (i : Fin q) : (later h i).val = r + i := rfl

theorem later_injective : Function.Injective (later h) := by
  intro i j hij
  have := congrArg Fin.val hij
  simp only [val_later] at this
  exact Fin.ext (by omega)

/-- A sum of terms that vanish before `r`. -/
theorem sum_later {f : Fin n → ℤ} (hzero : ∀ i : Fin n, i.val < r → f i = 0) :
    ∑ i, f i = ∑ i : Fin q, f (later h i) := by
  subst h
  rw [Fin.sum_univ_add, Finset.sum_eq_zero fun i _ => hzero (Fin.castAdd q i) i.2, zero_add]
  rfl

/-- Rows that vanish before `r` are multiplied by the later columns only. -/
theorem mulVec_later (V : Matrix (Fin m) (Fin n) ℤ) {x : Fin n → ℤ}
    (hzero : ∀ i : Fin n, i.val < r → x i = 0) :
    V *ᵥ x = V.submatrix id (later h) *ᵥ fun i => x (later h i) := by
  funext i
  apply sum_later h
  intro j hj
  rw [hzero j hj, mul_zero]

theorem mul_later (V : Matrix (Fin m) (Fin n) ℤ) {M : Matrix (Fin n) (Fin p) ℤ}
    (hzero : ∀ i : Fin n, i.val < r → ∀ j, M i j = 0) :
    V * M = V.submatrix id (later h) * M.submatrix (later h) id := by
  ext i j
  rw [mul_apply, mul_apply]
  apply sum_later h
  intro k hk
  rw [hzero k hk, mul_zero]

end Later

abbrev Cycles (A : Matrix (Fin m) (Fin n) ℤ) : Submodule ℤ (Fin n → ℤ) :=
  LinearMap.ker A.mulVecLin

/-- The images that are cycles, as a subgroup of the cycles. -/
def boundaries (A : Matrix (Fin m) (Fin n) ℤ) (B : Matrix (Fin n) (Fin p) ℤ) :
    Submodule ℤ (Cycles A) :=
  (LinearMap.range B.mulVecLin).comap (Cycles A).subtype

abbrev Homology (A : Matrix (Fin m) (Fin n) ℤ) (B : Matrix (Fin n) (Fin p) ℤ) : Type :=
  Cycles A ⧸ boundaries A B

/-- `P` gives the coordinates of a cycle and `G` the cycle of given coordinates; the image
of `B` consists of the multiples of a diagonal. -/
structure Presentation (A : Matrix (Fin m) (Fin n) ℤ) (B : Matrix (Fin n) (Fin p) ℤ)
    (P : Matrix (Fin q) (Fin n) ℤ) (G : Matrix (Fin n) (Fin q) ℤ) (R : Matrix (Fin p) (Fin p) ℤ)
    (δ : ℕ → ℤ) : Prop where
  coordinates : P * G = 1
  cycles : A * G = 0
  complete : ∀ x, A *ᵥ x = 0 → G *ᵥ (P *ᵥ x) = x
  relations : B * R = G * rectDiagonal q p δ
  unimodular : ∃ R' : Matrix (Fin p) (Fin p) ℤ, R * R' = 1

/-- What divides the coordinates of boundaries at a place. -/
def relationAt (p : ℕ) (δ : ℕ → ℤ) (i : ℕ) : ℤ := if i < p then δ i else 0

namespace Presentation

variable {A : Matrix (Fin m) (Fin n) ℤ} {B : Matrix (Fin n) (Fin p) ℤ}
  {P : Matrix (Fin q) (Fin n) ℤ} {G : Matrix (Fin n) (Fin q) ℤ} {R : Matrix (Fin p) (Fin p) ℤ}
  {δ : ℕ → ℤ}

/-- Columns of an invertible matrix that span the kernel of `A`, and a diagonal form of the
image in their coordinates, are a presentation. -/
theorem of_kernel {r : ℕ} (hn : r + q = n) {V W : Matrix (Fin n) (Fin n) ℤ}
    {U U' : Matrix (Fin q) (Fin q) ℤ} (hWV : W * V = 1) (hVW : V * W = 1)
    (hkernel : ∀ i j, r ≤ j.val → (A * V) i j = 0)
    (hcoordinates : ∀ x, A *ᵥ x = 0 → ∀ i : Fin n, i.val < r → (W *ᵥ x) i = 0)
    (himage : ∀ i : Fin n, i.val < r → ∀ j, (W * B) i j = 0) (hU : U * U' = 1) (hU' : U' * U = 1)
    (hR : ∃ R' : Matrix (Fin p) (Fin p) ℤ, R * R' = 1)
    (hdiagonal : U * (W * B).submatrix (later hn) id * R = rectDiagonal q p δ) :
    Presentation A B (U * W.submatrix (later hn) id) (V.submatrix id (later hn) * U') R δ where
  coordinates := by
    have hone : W.submatrix (later hn) id * V.submatrix id (later hn) = 1 := by
      rw [← submatrix_mul W V (later hn) id (later hn) Function.bijective_id, hWV,
        submatrix_one _ (later_injective hn)]
    rw [Matrix.mul_assoc, ← Matrix.mul_assoc _ _ U', hone, Matrix.one_mul, hU]
  cycles := by
    have hzero : A * V.submatrix id (later hn) = 0 := by
      ext i j
      exact hkernel i (later hn j) (Nat.le_add_right _ _)
    rw [← Matrix.mul_assoc, hzero, Matrix.zero_mul]
  complete := by
    intro x hx
    rw [← mulVec_mulVec, ← mulVec_mulVec, mulVec_mulVec _ U', hU', one_mulVec]
    have hlift := mulVec_later hn V (hcoordinates x hx)
    rw [mulVec_mulVec, hVW, one_mulVec] at hlift
    exact hlift.symm
  relations := by
    have hB := mul_later hn V himage
    rw [← Matrix.mul_assoc, hVW, Matrix.one_mul] at hB
    rw [← hdiagonal, Matrix.mul_assoc, Matrix.mul_assoc U, ← Matrix.mul_assoc U', hU',
      Matrix.one_mul, ← Matrix.mul_assoc, ← hB]
  unimodular := hR

theorem boundary_eq (h : Presentation A B P G R δ) :
    ∃ R' : Matrix (Fin p) (Fin p) ℤ, B = G * rectDiagonal q p δ * R' := by
  obtain ⟨R', hR⟩ := h.unimodular
  refine ⟨R', ?_⟩
  rw [← h.relations, Matrix.mul_assoc, hR, Matrix.mul_one]

theorem coordinates_boundary (h : Presentation A B P G R δ) :
    ∃ R' : Matrix (Fin p) (Fin p) ℤ, P * B = rectDiagonal q p δ * R' := by
  obtain ⟨R', hB⟩ := h.boundary_eq
  refine ⟨R', ?_⟩
  rw [hB, ← Matrix.mul_assoc, ← Matrix.mul_assoc, h.coordinates, Matrix.one_mul]

theorem coordinates_cycle (h : Presentation A B P G R δ) (c : Fin q → ℤ) :
    P *ᵥ (G *ᵥ c) = c := by
  rw [mulVec_mulVec, h.coordinates, one_mulVec]

theorem cycle_mulVec (h : Presentation A B P G R δ) (c : Fin q → ℤ) : A *ᵥ (G *ᵥ c) = 0 := by
  rw [mulVec_mulVec, h.cycles, zero_mulVec]

/-- The filling of the multiples of the relations. -/
theorem filling (h : Presentation A B P G R δ) (a : Fin p → ℤ) :
    B *ᵥ (R *ᵥ a) = G *ᵥ (rectDiagonal q p δ *ᵥ a) := by
  rw [mulVec_mulVec, mulVec_mulVec, h.relations]

/-- A cycle is a combination of the columns and a boundary, whatever multiples of the
relations are taken off its coordinates. -/
theorem decomposition (h : Presentation A B P G R δ) {x : Fin n → ℤ} (hx : A *ᵥ x = 0)
    (a : Fin p → ℤ) :
    G *ᵥ (P *ᵥ x - rectDiagonal q p δ *ᵥ a) + B *ᵥ (R *ᵥ a) = x := by
  rw [h.filling, mulVec_sub, h.complete x hx, sub_add_cancel]

/-- A cycle is a boundary exactly when the relations divide its coordinates. -/
theorem boundary_iff (h : Presentation A B P G R δ) {x : Fin n → ℤ} (hx : A *ᵥ x = 0) :
    (∃ y, B *ᵥ y = x) ↔ ∀ i : Fin q, relationAt p δ i ∣ (P *ᵥ x) i := by
  constructor
  · rintro ⟨y, rfl⟩ i
    obtain ⟨R', hR⟩ := h.coordinates_boundary
    rw [mulVec_mulVec, hR, ← mulVec_mulVec, rectDiagonal_mulVec, relationAt]
    split_ifs with hi
    · exact dvd_mul_right _ _
    · exact dvd_rfl
  · intro hdvd
    -- the quotients of the coordinates fill the cycle
    have hquotient : ∀ j : Fin p, ∃ a, ∀ hj : j.val < q, (P *ᵥ x) ⟨j, hj⟩ = δ j * a := by
      intro j
      by_cases hj : j.val < q
      · obtain ⟨a, ha⟩ := hdvd ⟨j, hj⟩
        rw [relationAt, if_pos j.2] at ha
        exact ⟨a, fun _ => ha⟩
      · exact ⟨0, fun hlt => absurd hlt hj⟩
    choose a ha using hquotient
    refine ⟨R *ᵥ a, ?_⟩
    rw [h.filling]
    have hcoordinates : rectDiagonal q p δ *ᵥ a = P *ᵥ x := by
      funext i
      rw [rectDiagonal_mulVec]
      split_ifs with hi
      · exact (ha ⟨i, hi⟩ i.2).symm
      · have hzero := hdvd i
        rw [relationAt, if_neg hi, zero_dvd_iff] at hzero
        exact hzero.symm
    rw [hcoordinates, h.complete x hx]

section Generators

variable {units g : ℕ} (hq : units + g = q)

/-- The coordinates of a combination of the columns that are no units. -/
theorem coordinates_generators (h : Presentation A B P G R δ) (γ : Fin g → ℤ) :
    A *ᵥ (G.submatrix id (later hq) *ᵥ γ) = 0 ∧
      (∀ i : Fin q, i.val < units → (P *ᵥ (G.submatrix id (later hq) *ᵥ γ)) i = 0) ∧
      ∀ j, (P *ᵥ (G.submatrix id (later hq) *ᵥ γ)) (later hq j) = γ j := by
  subst hq
  let c : Fin (units + g) → ℤ := Fin.append 0 γ
  have hlater : ∀ j, c (later rfl j) = γ j := fun j => Fin.append_right 0 γ j
  have hunit : ∀ i : Fin (units + g), i.val < units → c i = 0 := by
    intro i hi
    exact Fin.append_left (0 : Fin units → ℤ) γ ⟨i, hi⟩
  have hcombination : G.submatrix id (later rfl) *ᵥ γ = G *ᵥ c := by
    rw [mulVec_later rfl G hunit, funext hlater]
  rw [hcombination, h.coordinates_cycle]
  exact ⟨h.cycle_mulVec c, hunit, hlater⟩

/-- A combination of the generators is a boundary only by their orders. -/
theorem generators_boundary_iff (h : Presentation A B P G R δ) (γ : Fin g → ℤ) :
    (∃ y, B *ᵥ y = G.submatrix id (later hq) *ᵥ γ) ↔
      ∀ j : Fin g, relationAt p δ (units + j) ∣ γ j := by
  obtain ⟨hcycle, hunit, hlater⟩ := h.coordinates_generators hq γ
  rw [h.boundary_iff hcycle]
  constructor
  · intro hdvd j
    rw [← hlater j]
    exact hdvd (later hq j)
  · intro hdvd i
    rcases Nat.lt_or_ge i.val units with hi | hi
    · rw [hunit i hi]
      exact dvd_zero _
    · have hi' : i = later hq ⟨i.val - units, by omega⟩ := Fin.ext (by simp; omega)
      rw [hi', hlater]
      exact hdvd _

/-- Cycles are homologous exactly when their coordinates after the units agree modulo the
relations. -/
theorem homologous_iff_later (h : Presentation A B P G R δ)
    (hunits : ∀ i < units, IsUnit (relationAt p δ i)) {x x' : Fin n → ℤ} (hx : A *ᵥ x = 0)
    (hx' : A *ᵥ x' = 0) : (∃ y, B *ᵥ y = x - x') ↔
      ∀ j : Fin g, relationAt p δ (units + j) ∣ (P *ᵥ x) (later hq j) - (P *ᵥ x') (later hq j) := by
  rw [h.boundary_iff (by rw [mulVec_sub, hx, hx', sub_zero]), mulVec_sub]
  constructor
  · intro hdvd j
    exact hdvd (later hq j)
  · intro hdvd i
    rcases Nat.lt_or_ge i.val units with hi | hi
    · exact (hunits i hi).dvd
    · have hi' : i = later hq ⟨i.val - units, by omega⟩ := Fin.ext (by simp; omega)
      rw [hi']
      exact hdvd _

/-- Taking off the quotients by the relations leaves a combination of the generators. -/
theorem generators_decomposition (h : Presentation A B P G R δ) {x : Fin n → ℤ}
    (hx : A *ᵥ x = 0) {a : Fin p → ℤ}
    (ha : ∀ i : Fin q, i.val < units → (P *ᵥ x) i = (rectDiagonal q p δ *ᵥ a) i) :
    G.submatrix id (later hq) *ᵥ (fun j =>
        (P *ᵥ x) (later hq j) - (rectDiagonal q p δ *ᵥ a) (later hq j)) + B *ᵥ (R *ᵥ a) = x := by
  have hgenerators := mulVec_later hq G (x := P *ᵥ x - rectDiagonal q p δ *ᵥ a) (by
    intro i hi
    rw [Pi.sub_apply, ha i hi, sub_self])
  have hdecomposition := h.decomposition hx a
  rw [hgenerators] at hdecomposition
  exact hdecomposition

end Generators

/-- A homomorphism of the coordinates that vanishes on the multiples of the relations only
gives the homology. -/
theorem homology_equiv (h : Presentation A B P G R δ) {T : Type*} [AddCommGroup T]
    (ψ : (Fin q → ℤ) →ₗ[ℤ] T) (hsurjective : Function.Surjective ψ)
    (hkernel : ∀ c, ψ c = 0 ↔ ∀ i : Fin q, relationAt p δ i ∣ c i) :
    Nonempty (Homology A B ≃+ T) := by
  let φ : Cycles A →ₗ[ℤ] T := ψ ∘ₗ P.mulVecLin ∘ₗ (Cycles A).subtype
  have hφ : Function.Surjective φ := by
    intro t
    obtain ⟨c, rfl⟩ := hsurjective t
    refine ⟨⟨G *ᵥ c, ?_⟩, ?_⟩
    · exact h.cycle_mulVec c
    · change ψ (P *ᵥ (G *ᵥ c)) = ψ c
      rw [h.coordinates_cycle]
  have hker : boundaries A B = LinearMap.ker φ := by
    ext x
    have hx : A *ᵥ x.1 = 0 := x.2
    rw [LinearMap.mem_ker]
    change (∃ y, B *ᵥ y = x.1) ↔ ψ (P *ᵥ x.1) = 0
    rw [h.boundary_iff hx, hkernel]
  exact ⟨((Submodule.quotEquivOfEq _ _ hker).trans
    (φ.quotKerEquivOfSurjective hφ)).toAddEquiv⟩

/-- The places of the coordinates are units, torsion or free. -/
theorem forall_place {units torsion free : ℕ} {C : Fin (units + torsion + free) → Prop} :
    (∀ i, C i) ↔ (∀ j : Fin units, C (Fin.castAdd free (Fin.castAdd torsion j))) ∧
      (∀ j : Fin torsion, C (Fin.castAdd free (Fin.natAdd units j))) ∧
      ∀ j : Fin free, C (Fin.natAdd (units + torsion) j) := by
  constructor
  · intro h
    exact ⟨fun j => h _, fun j => h _, fun j => h _⟩
  · rintro ⟨hunits, htorsion, hfree⟩ i
    induction i using Fin.addCases with
    | left i =>
      induction i using Fin.addCases with
      | left j => exact hunits j
      | right j => exact htorsion j
    | right j => exact hfree j

/-- The residues at the torsion places and the values at the free ones. -/
def residues (units torsion free : ℕ) (δ : ℕ → ℤ) : (Fin (units + torsion + free) → ℤ) →ₗ[ℤ]
    (∀ j : Fin torsion, ZMod (δ (units + j)).natAbs) × (Fin free → ℤ) where
  toFun c := (fun j => (c (Fin.castAdd free (Fin.natAdd units j)) : ZMod _),
    fun j => c (Fin.natAdd (units + torsion) j))
  map_add' c d := by
    ext j
    · simp
    · simp
  map_smul' k c := by
    ext j
    · simp
    · simp

theorem residues_surjective (units torsion free : ℕ) (δ : ℕ → ℤ) :
    Function.Surjective (residues units torsion free δ) := by
  rintro ⟨t, f⟩
  refine ⟨Fin.append (Fin.append 0 fun j => ZMod.cast (t j)) f, ?_⟩
  ext j
  · simp [residues]
  · simp [residues]

theorem residues_eq_zero_iff {units torsion free : ℕ} (hp : units + torsion ≤ p)
    (hunits : ∀ i < units, IsUnit (δ i)) (hfree : ∀ i, units + torsion ≤ i → δ i = 0)
    (c : Fin (units + torsion + free) → ℤ) :
    residues units torsion free δ c = 0 ↔
      ∀ i : Fin (units + torsion + free), relationAt p δ i ∣ c i := by
  rw [forall_place, Prod.ext_iff, funext_iff, funext_iff]
  have hunit : ∀ j : Fin units, relationAt p δ (Fin.castAdd free (Fin.castAdd torsion j)) ∣
      c (Fin.castAdd free (Fin.castAdd torsion j)) := by
    intro j
    rw [relationAt, if_pos (by simp only [Fin.val_castAdd]; omega)]
    exact (hunits j j.2).dvd
  have htorsion : ∀ j : Fin torsion,
      (residues units torsion free δ c).1 j = 0 ↔
        relationAt p δ (Fin.castAdd free (Fin.natAdd units j)) ∣
          c (Fin.castAdd free (Fin.natAdd units j)) := by
    intro j
    rw [relationAt, if_pos (by simp only [Fin.val_castAdd, Fin.val_natAdd]; omega)]
    change (Int.cast (c (Fin.castAdd free (Fin.natAdd units j))) :
      ZMod (δ (units + j)).natAbs) = 0 ↔ _
    rw [CharP.intCast_eq_zero_iff _ (δ (units + j)).natAbs, Int.natAbs_dvd]
    rfl
  have hzero : ∀ j : Fin free, (residues units torsion free δ c).2 j = 0 ↔
      relationAt p δ (Fin.natAdd (units + torsion) j) ∣ c (Fin.natAdd (units + torsion) j) := by
    intro j
    have hrelation : relationAt p δ (Fin.natAdd (units + torsion) j) = 0 := by
      rw [relationAt, hfree _ (by simp), ite_self]
    rw [hrelation, zero_dvd_iff]
    rfl
  constructor
  · rintro ⟨ht, hf⟩
    exact ⟨hunit, fun j => (htorsion j).1 (ht j), fun j => (hzero j).1 (hf j)⟩
  · rintro ⟨-, ht, hf⟩
    exact ⟨fun j => (htorsion j).2 (ht j), fun j => (hzero j).2 (hf j)⟩

/-- Units contribute nothing, the other entries finite cyclic groups, and the places
without an entry free ones. -/
theorem homology_splits {units torsion free : ℕ} {d : Fin torsion → ℤ}
    (h : Presentation A B P G R δ) (hq : q = units + torsion + free) (hp : units + torsion ≤ p)
    (hunits : ∀ i < units, IsUnit (δ i)) (htorsion : ∀ j : Fin torsion, d j = δ (units + j))
    (hfree : ∀ i, units + torsion ≤ i → δ i = 0) :
    Nonempty (Homology A B ≃+ (∀ j, ZMod (d j).natAbs) × (Fin free → ℤ)) := by
  subst hq
  obtain rfl : d = fun j : Fin torsion => δ (units + j) := funext htorsion
  exact h.homology_equiv (residues units torsion free δ) (residues_surjective _ _ _ _)
    (residues_eq_zero_iff hp hunits hfree)

end Presentation

end FrankenSim.Library
