import Mathlib.Data.ZMod.Basic
import Mathlib.Data.Matrix.Mul
import Mathlib.Algebra.Order.BigOperators.Ring.Finset

/-!
# Diagonal forms of integer matrices

Integer matrices that are equivalent by invertible matrices have equally many
solutions modulo every number. The solutions of a rectangular diagonal matrix are
counted entry by entry, so a divisibility chain of non-negative diagonal entries is
determined by the matrix.
-/
namespace FrankenSim.Library

open Matrix

variable {m n : ℕ}

/-- The rectangular diagonal matrix of a sequence. -/
def rectDiagonal (m n : ℕ) (δ : ℕ → ℤ) : Matrix (Fin m) (Fin n) ℤ :=
  Matrix.of fun i j => if i.val = j.val then δ i else 0

/-- Non-negative entries, each dividing the later ones. -/
structure DivisorChain (k : ℕ) (δ : ℕ → ℤ) : Prop where
  nonneg : ∀ i < k, 0 ≤ δ i
  dvd : ∀ i j, i ≤ j → j < k → δ i ∣ δ j

/-- The solutions of a homogeneous system modulo a number. -/
abbrev Solutions (A : Matrix (Fin m) (Fin n) ℤ) (d : ℕ) : Type :=
  {x : Fin n → ZMod d // A.map (Int.cast : ℤ → ZMod d) *ᵥ x = 0}

/-- The values that a diagonal entry allows at its column. -/
abbrev Allowed (m : ℕ) (δ : ℕ → ℤ) (d : ℕ) (j : ℕ) : Type :=
  {t : ZMod d // j < m → (δ j : ZMod d) * t = 0}

private theorem eq_of_same_divisors {a b : ℤ} (ha : 0 ≤ a) (hb : 0 ≤ b)
    (h : ∀ d : ℕ, d ≠ 0 → ((d : ℤ) ∣ a ↔ (d : ℤ) ∣ b)) : a = b := by
  lift a to ℕ using ha
  lift b to ℕ using hb
  simp only [Int.natCast_dvd_natCast] at h
  -- a zero entry is divided by numbers beyond every other entry
  rcases Nat.eq_zero_or_pos a with rfl | ha
  · have hdvd := (h (b + 1) (by omega)).1 (dvd_zero _)
    rcases Nat.eq_zero_or_pos b with rfl | hb
    · rfl
    · have := Nat.le_of_dvd hb hdvd
      omega
  · rcases Nat.eq_zero_or_pos b with rfl | hb
    · have := Nat.le_of_dvd ha ((h (a + 1) (by omega)).2 (dvd_zero _))
      omega
    · exact congrArg _ (Nat.dvd_antisymm ((h a (by omega)).1 dvd_rfl) ((h b (by omega)).2 dvd_rfl))

section Counting

variable {d : ℕ}

variable {R : Type*} [CommRing R]

private theorem reduce_mulVec {l : ℕ} (A : Matrix (Fin l) (Fin m) ℤ) (B : Matrix (Fin m) (Fin n) ℤ)
    (x : Fin n → R) :
    A.map (Int.cast : ℤ → R) *ᵥ (B.map Int.cast *ᵥ x) = (A * B).map Int.cast *ᵥ x := by
  have hmap : (A * B).map (Int.castRingHom R) = A.map (Int.castRingHom R) * B.map _ :=
    Matrix.map_mul
  exact (mulVec_mulVec x _ _).trans (congrArg (· *ᵥ x) hmap.symm)

private theorem reduce_one_mulVec (x : Fin n → R) :
    (1 : Matrix (Fin n) (Fin n) ℤ).map (Int.cast : ℤ → R) *ᵥ x = x := by
  rw [Matrix.map_one _ Int.cast_zero Int.cast_one, one_mulVec]

/-- An invertible change of the unknowns and of the equations keeps the solutions. -/
theorem card_solutions_eq [NeZero d] {A D : Matrix (Fin m) (Fin n) ℤ}
    {U U' : Matrix (Fin m) (Fin m) ℤ} {V V' : Matrix (Fin n) (Fin n) ℤ} (hU : U' * U = 1)
    (hV : V * V' = 1) (hV' : V' * V = 1) (h : U * A * V = D) :
    Fintype.card (Solutions A d) = Fintype.card (Solutions D d) := by
  have hVd (x : Fin n → ZMod d) :
      V.map (Int.cast : ℤ → ZMod d) *ᵥ (V'.map Int.cast *ᵥ x) = x := by
    rw [reduce_mulVec, hV, reduce_one_mulVec]
  have hVd' (x : Fin n → ZMod d) :
      V'.map (Int.cast : ℤ → ZMod d) *ᵥ (V.map Int.cast *ᵥ x) = x := by
    rw [reduce_mulVec, hV', reduce_one_mulVec]
  have hDy (y : Fin n → ZMod d) : D.map (Int.cast : ℤ → ZMod d) *ᵥ y =
      U.map Int.cast *ᵥ (A.map Int.cast *ᵥ (V.map Int.cast *ᵥ y)) := by
    rw [reduce_mulVec A, reduce_mulVec U, ← Matrix.mul_assoc, h]
  have hAy (y : Fin n → ZMod d) : A.map (Int.cast : ℤ → ZMod d) *ᵥ (V.map Int.cast *ᵥ y) =
      U'.map Int.cast *ᵥ (D.map Int.cast *ᵥ y) := by
    have hback : A * V = U' * D := by
      rw [← h, Matrix.mul_assoc U, ← Matrix.mul_assoc, hU, Matrix.one_mul]
    rw [reduce_mulVec, reduce_mulVec, hback]
  apply Fintype.card_congr
  exact
    { toFun := fun x => ⟨V'.map Int.cast *ᵥ x.1, by
        rw [hDy, hVd, x.2, mulVec_zero]⟩
      invFun := fun y => ⟨V.map Int.cast *ᵥ y.1, by
        rw [hAy, y.2, mulVec_zero]⟩
      left_inv := fun x => Subtype.ext (hVd x.1)
      right_inv := fun y => Subtype.ext (hVd' y.1) }

theorem mulVec_rectDiagonal (δ : ℕ → ℤ) (x : Fin n → ZMod d) (i : Fin m) :
    ((rectDiagonal m n δ).map (Int.cast : ℤ → ZMod d) *ᵥ x) i =
      if h : i.val < n then (δ i : ZMod d) * x ⟨i, h⟩ else 0 := by
  simp only [mulVec, dotProduct, map_apply, rectDiagonal, of_apply]
  split_ifs with h
  · rw [Finset.sum_eq_single ⟨i.val, h⟩]
    · simp
    · intro j _ hj
      have hne : i.val ≠ j.val := fun heq => hj (Fin.ext heq.symm)
      simp [hne]
    · intro hmem
      exact absurd (Finset.mem_univ _) hmem
  · apply Finset.sum_eq_zero
    intro j _
    have hne : i.val ≠ j.val := by omega
    simp [hne]

theorem rectDiagonal_mulVec_eq_zero_iff (δ : ℕ → ℤ) (x : Fin n → ZMod d) :
    (rectDiagonal m n δ).map (Int.cast : ℤ → ZMod d) *ᵥ x = 0 ↔
      ∀ j : Fin n, j.val < m → (δ j : ZMod d) * x j = 0 := by
  constructor
  · intro h j hj
    have hrow := congrFun h ⟨j.val, hj⟩
    rw [mulVec_rectDiagonal, dif_pos j.isLt] at hrow
    exact hrow
  · intro h
    funext i
    rw [mulVec_rectDiagonal]
    split_ifs with hi
    · exact h ⟨i, hi⟩ i.isLt
    · rfl

/-- The solutions of a diagonal system are chosen column by column. -/
theorem card_solutions_rectDiagonal [NeZero d] (δ : ℕ → ℤ) :
    Fintype.card (Solutions (rectDiagonal m n δ) d) =
      ∏ j : Fin n, Fintype.card (Allowed m δ d j) := by
  rw [← Fintype.card_pi]
  apply Fintype.card_congr
  exact
    { toFun := fun x j => ⟨x.1 j, (rectDiagonal_mulVec_eq_zero_iff δ x.1).1 x.2 j⟩
      invFun := fun y => ⟨fun j => (y j).1,
        (rectDiagonal_mulVec_eq_zero_iff δ _).2 fun j => (y j).2⟩
      left_inv := fun _ => rfl
      right_inv := fun _ => rfl }

theorem card_allowed_pos [NeZero d] (δ : ℕ → ℤ) (j : ℕ) : 0 < Fintype.card (Allowed m δ d j) :=
  Fintype.card_pos_iff.2 ⟨⟨0, fun _ => mul_zero _⟩⟩

/-- Every value is allowed exactly when the modulus divides the entry. -/
theorem forall_allowed_iff (δ : ℕ → ℤ) (j : ℕ) :
    (∀ t : ZMod d, j < m → (δ j : ZMod d) * t = 0) ↔ (j < m → (d : ℤ) ∣ δ j) := by
  rw [← ZMod.intCast_zmod_eq_zero_iff_dvd]
  constructor
  · intro h hj
    have hone := h 1 hj
    rwa [mul_one] at hone
  · intro h t hj
    rw [h hj, zero_mul]

/-- A column allows no more values than one that allows every value of the other. -/
theorem card_allowed_mono [NeZero d] {δ δ' : ℕ → ℤ} {j : ℕ}
    (h : ∀ t : ZMod d, (j < m → (δ j : ZMod d) * t = 0) → j < m → (δ' j : ZMod d) * t = 0) :
    Fintype.card (Allowed m δ d j) ≤ Fintype.card (Allowed m δ' d j) :=
  Fintype.card_subtype_mono _ _ h

/-- A column that refuses some value allows fewer than one that allows all of them. -/
theorem card_allowed_lt [NeZero d] {δ δ' : ℕ → ℤ} {j : ℕ} (hall : j < m → (d : ℤ) ∣ δ' j)
    (hsome : ¬ (j < m → (d : ℤ) ∣ δ j)) :
    Fintype.card (Allowed m δ d j) < Fintype.card (Allowed m δ' d j) := by
  rw [← forall_allowed_iff] at hall hsome
  obtain ⟨t, ht⟩ := not_forall.1 hsome
  apply Fintype.card_lt_of_injective_not_surjective
    (fun x : Allowed m δ d j => (⟨x.1, hall x.1⟩ : Allowed m δ' d j))
  · intro x y hxy
    exact Subtype.ext (Subtype.mk.inj hxy)
  · intro hsurj
    obtain ⟨x, hx⟩ := hsurj ⟨t, hall t⟩
    have hxt : x.1 = t := congrArg Subtype.val hx
    exact ht (hxt ▸ x.2)

end Counting

/-- Every modulus that divides an entry of one chain divides the entry of the other. -/
theorem dvd_of_equally_solvable {δ δ' : ℕ → ℤ} (hδ : DivisorChain (min m n) δ)
    (hcard : ∀ (d : ℕ) [NeZero d], Fintype.card (Solutions (rectDiagonal m n δ) d) =
      Fintype.card (Solutions (rectDiagonal m n δ') d))
    {i : ℕ} (hi : i < min m n) (heq : ∀ j < i, δ j = δ' j) {d : ℕ} [NeZero d]
    (hd : (d : ℤ) ∣ δ i) : (d : ℤ) ∣ δ' i := by
  by_contra hnot
  have hcount := hcard d
  rw [card_solutions_rectDiagonal, card_solutions_rectDiagonal] at hcount
  -- below the entry both columns agree, from the entry on the first chain allows every value
  have hlt : ∏ j : Fin n, Fintype.card (Allowed m δ' d j) <
      ∏ j : Fin n, Fintype.card (Allowed m δ d j) := by
    apply Finset.prod_lt_prod
    · intro j _
      exact card_allowed_pos δ' j
    · intro j _
      by_cases hj : j.val < i
      · exact card_allowed_mono fun t ht => by rwa [heq j hj]
      · have hall : j.val < m → (d : ℤ) ∣ δ j :=
          fun hjm => hd.trans (hδ.dvd i j (by omega) (by omega))
        exact card_allowed_mono fun t _ => (forall_allowed_iff δ j).2 hall t
    · exact ⟨⟨i, by omega⟩, Finset.mem_univ _, card_allowed_lt (fun _ => hd) fun h =>
        hnot (h (lt_of_lt_of_le hi (min_le_left m n)))⟩
  omega

/-- The entries of a divisibility chain are determined by the number of solutions. -/
theorem DivisorChain.eq_of_equally_solvable {δ δ' : ℕ → ℤ} (hδ : DivisorChain (min m n) δ)
    (hδ' : DivisorChain (min m n) δ')
    (hcard : ∀ (d : ℕ) [NeZero d], Fintype.card (Solutions (rectDiagonal m n δ) d) =
      Fintype.card (Solutions (rectDiagonal m n δ') d)) :
    ∀ i < min m n, δ i = δ' i := by
  intro i
  induction i using Nat.strong_induction_on with
  | _ i ih =>
    intro hi
    have hbelow : ∀ j < i, δ j = δ' j := fun j hj => ih j hj (by omega)
    have hdvd : ∀ d : ℕ, d ≠ 0 → ((d : ℤ) ∣ δ i ↔ (d : ℤ) ∣ δ' i) := by
      intro d hd
      have : NeZero d := ⟨hd⟩
      exact ⟨dvd_of_equally_solvable hδ hcard hi hbelow,
        dvd_of_equally_solvable hδ' (fun d _ => (hcard d).symm) hi
          fun j hj => (hbelow j hj).symm⟩
    exact eq_of_same_divisors (hδ.nonneg i hi) (hδ'.nonneg i hi) hdvd

/-- Equivalent diagonal matrices with divisibility chains have the same entries. -/
theorem diagonal_unique {A : Matrix (Fin m) (Fin n) ℤ} {δ δ' : ℕ → ℤ}
    {U U' W W' : Matrix (Fin m) (Fin m) ℤ} {V V' X X' : Matrix (Fin n) (Fin n) ℤ}
    (hδ : DivisorChain (min m n) δ) (hδ' : DivisorChain (min m n) δ')
    (hU : U' * U = 1) (hV : V * V' = 1) (hV' : V' * V = 1)
    (hW : W' * W = 1) (hX : X * X' = 1) (hX' : X' * X = 1)
    (h : U * A * V = rectDiagonal m n δ) (h' : W * A * X = rectDiagonal m n δ') :
    ∀ i < min m n, δ i = δ' i := by
  apply hδ.eq_of_equally_solvable hδ'
  intro d _
  rw [← card_solutions_eq hU hV hV' h, card_solutions_eq hW hX hX' h']

end FrankenSim.Library
