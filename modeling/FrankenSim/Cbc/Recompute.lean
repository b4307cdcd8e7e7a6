import FrankenSim.Cbc.Certificate
import FrankenSim.Library.Refusals

/-!
# What the checkers recompute

The products, the scores and the declared numbers of a checker are normalized limbs of the
exact values.
-/
namespace FrankenSim.Cbc

open Library

def exactScore (n : ℕ) (generators : List ℕ) (candidate : ℕ) : ℕ :=
  scanValue n candidate generators n

variable {n : ℕ} {generators : List ℕ}

theorem exactKernelNumerator_lt_radix_pow (hn : 0 < n) (hlt : n < RADIX) (point generator : ℕ) :
    exactKernelNumerator n (latticeResidue point generator n) < RADIX ^ 3 := by
  have hle := exactKernelNumerator_le (latticeResidue_lt hn point generator)
  have hsquare : n * n < RADIX * RADIX := Nat.mul_lt_mul'' hlt hlt
  have hbound : 7 * (RADIX * RADIX) < RADIX ^ 3 := by decide
  omega

theorem kernel_factorLen_le (hn : 0 < n) (hlt : n < RADIX) (point generator : ℕ) :
    exactKernelNumerator n (latticeResidue point generator n) < 2 ^ 128 ∧
      (factorLimbsU32 (exactKernelNumerator n (latticeResidue point generator n))).2 ≤ 3 := by
  have hkernel := exactKernelNumerator_lt_radix_pow hn hlt point generator
  have hsmall : exactKernelNumerator n (latticeResidue point generator n) < 2 ^ 128 :=
    hkernel.trans (by decide)
  refine ⟨hsmall, ?_⟩
  rwa [(factorLimbsU32_spec hsmall).1, Nat.digits_length_le_iff one_lt_radix]

theorem kernelProduct_lt_radix_pow (hn : 0 < n) (hlt : n < RADIX) (point : ℕ)
    (generators : List ℕ) :
    kernelProduct n point generators < RADIX ^ (3 * generators.length + 1) := by
  induction generators with
  | nil => simp [kernelProduct, one_lt_radix]
  | cons generator generators ih =>
    have hkernel := exactKernelNumerator_lt_radix_pow hn hlt point generator
    have hpow : RADIX ^ (3 * (generator :: generators).length + 1) =
        RADIX ^ 3 * RADIX ^ (3 * generators.length + 1) := by
      rw [List.length_cons, ← pow_add]
      congr 1
      ring
    rw [hpow, kernelProduct, List.map_cons, List.prod_cons]
    exact Nat.mul_lt_mul'' hkernel ih

theorem product_digits_length (hn : 0 < n) (hlt : n < RADIX) (point : ℕ) (generators : List ℕ) :
    (Nat.digits RADIX (kernelProduct n point generators)).length ≤
      3 * generators.length + 1 := by
  rw [Nat.digits_length_le_iff one_lt_radix]
  exact kernelProduct_lt_radix_pow hn hlt point generators

/-- What the checker needs for the score of a candidate. -/
theorem scanBound_checker (hn : 0 < n) (hlt : n < RADIX) (candidate : ℕ) (generators : List ℕ) :
    ScanBound n candidate generators (3 * generators.length + 6) where
  factor_lt point _ := (kernel_factorLen_le hn hlt point candidate).1
  needed_le point _ := by
    have hfactor := (kernel_factorLen_le hn hlt point candidate).2
    have hproduct := product_digits_length hn hlt point generators
    omega
  value_lt point hpoint := by
    have hproduct (point : ℕ) : kernelProduct n point (generators ++ [candidate]) ≤
        RADIX ^ (3 * generators.length + 4) := by
      have hle := kernelProduct_lt_radix_pow hn hlt point (generators ++ [candidate])
      rw [List.length_append, List.length_singleton] at hle
      exact hle.le
    calc scanValue n candidate generators (point + 1)
        ≤ (point + 1) * RADIX ^ (3 * generators.length + 4) := scanValue_le hproduct _
      _ ≤ RADIX * RADIX ^ (3 * generators.length + 4) := Nat.mul_le_mul_right _ (by omega)
      _ = RADIX ^ (3 * generators.length + 5) := (pow_succ' _ _).symm
      _ < RADIX ^ (3 * generators.length + 6) :=
        Nat.pow_lt_pow_right one_lt_radix (Nat.lt_succ_self _)

theorem zipIdx_range_map {α : Type*} (g : ℕ → α) (n : ℕ) :
    ((List.range n).map g).zipIdx = (List.range n).map fun i => (g i, i) := by
  apply List.ext_getElem
  · simp
  · intro i hi hi'
    simp

theorem productsFor_eq (hn : 0 < n) (hlt : n < RADIX) (hlength : generators.length < RADIX) :
    productsFor n generators =
      .ok ((List.range n).map fun point => Nat.digits RADIX (kernelProduct n point generators)) := by
  induction generators using List.reverseRecOn with
  | nil =>
    have hone : Nat.digits RADIX 1 = [1] := Nat.digits_of_lt _ _ one_ne_zero one_lt_radix
    simp [productsFor, kernelProduct, hone, pure, Except.pure]
  | append_singleton generators generator ih =>
    rw [List.length_append, List.length_singleton] at hlength
    have hprefix := ih (by omega)
    rw [productsFor] at hprefix
    rw [productsFor, List.foldlM_append, hprefix]
    simp only [bind, Except.bind, List.foldlM_cons, List.foldlM_nil]
    rw [zipIdx_range_map]
    have hupdate : ∀ entry ∈ (List.range n).map fun point =>
        (Nat.digits RADIX (kernelProduct n point generators), point),
        mulAssignFactor entry.1
          (exactKernelNumerator n (latticeResidue entry.2 generator n)) =
            .ok (Nat.digits RADIX (kernelProduct n entry.2 (generators ++ [generator]))) := by
      intro entry hentry
      obtain ⟨point, _, rfl⟩ := List.mem_map.1 hentry
      have hproduct := product_digits_length hn hlt point generators
      rw [mulAssignFactor_eq (fun x hx => Nat.digits_lt_base one_lt_radix hx)
        (by simp only [RADIX, VEC_LIMBS_MAX] at *; omega)
        (kernel_factorLen_le hn hlt point generator).1, Nat.ofDigits_digits,
        kernelProduct_concat]
    rw [mapM_ok hupdate]
    simp [pure, Except.pure]

theorem scoreFor_eq (hn : 0 < n) (hlt : n < RADIX) (hlength : generators.length < RADIX)
    (candidate : ℕ) :
    scoreFor n ((List.range n).map fun point =>
        Nat.digits RADIX (kernelProduct n point generators)) candidate =
      .ok (Nat.digits RADIX (exactScore n generators candidate)) := by
  have hgrow : 3 * generators.length + 6 ≤ USIZE_MAX := by
    simp only [RADIX, USIZE_MAX] at *
    omega
  obtain ⟨score, hscore, hscored⟩ := (scanBound_checker hn hlt candidate generators).foldlM_spec
    hgrow (fun h => addMulSliceFactor_spec h) (le_refl n)
  rw [scanTerms, List.foldlM_map] at hscore
  rw [scoreFor, zipIdx_range_map, List.foldlM_map, hscore]
  simp only [bind, Except.bind, normalize]
  rw [trimmed_eq_digits one_lt_radix hscored.limbs_lt, hscored.value_eq, exactScore]

section Declared

theorem digits_lt (m : ℕ) : ∀ x ∈ Nat.digits RADIX m, x < RADIX := fun _ hx =>
  Nat.digits_lt_base one_lt_radix hx

theorem shifted_eq (moves m : ℕ)
    (hlength : (Nat.digits RADIX (m * RADIX ^ moves)).length ≤ VEC_LIMBS_MAX) :
    shifted moves (Nat.digits RADIX m) = .ok (Nat.digits RADIX (m * RADIX ^ moves)) := by
  induction moves generalizing m with
  | zero => simp [shifted]
  | succ moves ih =>
    have hle : m ≤ m * RADIX ^ (moves + 1) :=
      Nat.le_mul_of_pos_right _ (Nat.pow_pos (Nat.zero_lt_of_lt one_lt_radix))
    have hmono := (Nat.le_length_digits_le RADIX m _ hle).trans hlength
    have hnext : m * RADIX * RADIX ^ moves = m * RADIX ^ (moves + 1) := by
      rw [pow_succ']
      ring
    have hmul : mulAssignFactor (Nat.digits RADIX m) 4294967296 =
        .ok (Nat.digits RADIX (m * RADIX)) := by
      rw [mulAssignFactor_eq (digits_lt m) hmono (by decide), Nat.ofDigits_digits]
      rfl
    rw [shifted, hmul]
    simp only [bind, Except.bind]
    rw [ih (m * RADIX) (by rwa [hnext]), hnext]

theorem declared_foldlM {limbs : List ℕ} (hlt : ∀ x ∈ limbs, x < RADIX) {cap : ℕ}
    (hcap : limbs.length + 2 ≤ cap) (hmax : cap ≤ VEC_LIMBS_MAX + 2) :
    ∃ value, limbs.zipIdx.foldlM
        (fun value (limb, index) =>
          if limb = 0 then Except.ok value
          else do
            let term ← shifted index [1]
            let term ← mulAssignFactor term limb
            addMulSliceFactor value term 1) ([] : List ℕ) = .ok value ∧
      (∀ x ∈ value, x < RADIX) ∧ value.length ≤ cap ∧
        Nat.ofDigits RADIX value = Nat.ofDigits RADIX limbs := by
  induction limbs using List.reverseRecOn with
  | nil => exact ⟨[], rfl, by simp, Nat.zero_le _, rfl⟩
  | append_singleton limbs limb ih =>
    rw [List.length_append, List.length_singleton] at hcap
    obtain ⟨value, hfold, hvalueLt, hvalueLength, hvalue⟩ :=
      ih (fun x hx => hlt x (List.mem_append_left _ hx)) (by omega)
    have hlimb : limb < RADIX := hlt limb (by simp)
    rw [List.zipIdx_append, List.foldlM_append, hfold]
    simp only [bind, Except.bind, List.zipIdx_singleton, zero_add, List.foldlM_cons,
      List.foldlM_nil]
    by_cases hzero : limb = 0
    · subst hzero
      exact ⟨value, by simp [pure, Except.pure], hvalueLt, hvalueLength, by
        rw [hvalue, ofDigits_concat_zero]⟩
    · have hone : Nat.digits RADIX 1 = [1] := Nat.digits_of_lt _ _ one_ne_zero one_lt_radix
      have hpow : (Nat.digits RADIX (RADIX ^ limbs.length)).length ≤ limbs.length + 1 := by
        rw [Nat.digits_length_le_iff one_lt_radix]
        exact Nat.pow_lt_pow_right one_lt_radix (Nat.lt_succ_self _)
      have hterm : (Nat.digits RADIX (RADIX ^ limbs.length * limb)).length ≤
          limbs.length + 1 := by
        rw [Nat.digits_length_le_iff one_lt_radix, pow_succ]
        exact Nat.mul_lt_mul_of_pos_left hlimb
          (Nat.pow_pos (Nat.zero_lt_of_lt one_lt_radix))
      have hshifted : shifted limbs.length [1] =
          .ok (Nat.digits RADIX (RADIX ^ limbs.length)) := by
        have h := shifted_eq limbs.length 1 (by rw [one_mul]; omega)
        rwa [hone, one_mul] at h
      have hscaled : mulAssignFactor (Nat.digits RADIX (RADIX ^ limbs.length)) limb =
          .ok (Nat.digits RADIX (RADIX ^ limbs.length * limb)) := by
        rw [mulAssignFactor_eq (digits_lt _) (by omega) (hlimb.trans (by decide)),
          Nat.ofDigits_digits]
      have hunit : (factorLimbsU32 1).2 = 1 := by decide
      have htotal : Nat.ofDigits RADIX (limbs ++ [limb]) =
          Nat.ofDigits RADIX limbs + RADIX ^ limbs.length * limb := by
        rw [Nat.ofDigits_append, Nat.ofDigits_singleton]
      have hfits : SizesFit value (Nat.digits RADIX (RADIX ^ limbs.length * limb)) 1
          ((Nat.digits RADIX (RADIX ^ limbs.length * limb)).length + (factorLimbsU32 1).2 + 1)
          cap USIZE_MAX := by
        constructor
        · exact hvalueLt
        · exact digits_lt _
        · decide
        · omega
        · simp only [VEC_LIMBS_MAX, USIZE_MAX] at *
          omega
        · exact hvalueLength
        · omega
        · rw [hvalue, Nat.ofDigits_digits, mul_one, ← htotal]
          have hall := ofDigits_lt_pow one_lt_radix hlt
          rw [List.length_append, List.length_singleton] at hall
          exact hall.trans_le (Nat.pow_le_pow_right (by decide) (by omega))
      obtain ⟨final, hfinal, hsum⟩ := addMulSliceFactor_spec hfits
      refine ⟨final, ?_, hsum.limbs_lt, hsum.length_le, ?_⟩
      · simp [hzero, hshifted, hscaled, hfinal, pure, Except.pure]
      · rw [hsum.value_eq, hvalue, Nat.ofDigits_digits, mul_one, htotal]

/-- Declared limbs are rebuilt as the normalized limbs of their value. -/
theorem exactFromLimbs_eq {limbs : List ℕ} (hlt : ∀ x ∈ limbs, x < RADIX)
    (hlength : limbs.length ≤ VEC_LIMBS_MAX) :
    exactFromLimbs limbs = .ok (Nat.digits RADIX (Nat.ofDigits RADIX limbs)) := by
  obtain ⟨value, hfold, hvalueLt, _, hvalue⟩ :=
    declared_foldlM hlt (le_refl _) (Nat.add_le_add_right hlength 2)
  rw [exactFromLimbs, hfold]
  simp only [bind, Except.bind, normalize]
  rw [trimmed_eq_digits one_lt_radix hvalueLt, hvalue]

theorem copied_eq {m : ℕ} (hlength : (Nat.digits RADIX m).length ≤ VEC_LIMBS_MAX) :
    ∃ copied, addMulSliceFactor [] (Nat.digits RADIX m) 1 = .ok copied ∧
      normalize copied = Nat.digits RADIX m := by
  have h := mulAssignFactor_eq (digits_lt m) hlength (show 1 < 2 ^ 128 by decide)
  rw [mulAssignFactor, Nat.ofDigits_digits, mul_one] at h
  obtain ⟨copied, hcopied, hnormal⟩ := bind_eq_ok h
  exact ⟨copied, hcopied, Except.ok.inj hnormal⟩

end Declared

theorem gcd_eq (a b : ℕ) : gcd a b = Nat.gcd a b := by
  induction b using Nat.strong_induction_on generalizing a with
  | _ b ih =>
    unfold gcd
    split
    case isTrue h =>
      subst h
      exact (Nat.gcd_zero_right a).symm
    case isFalse h =>
      rw [ih (a % b) (Nat.mod_lt _ (Nat.pos_of_ne_zero h)), Nat.gcd_comm b, ← Nat.gcd_rec,
        Nat.gcd_comm]

def IsUnitMod (n component : ℕ) : Prop := 0 < component ∧ component < n ∧ component.Coprime n

theorem inadmissible_eq_false {component : ℕ} :
    inadmissible n component = false ↔ IsUnitMod n component := by
  rw [inadmissible, gcd_eq, decide_eq_false_iff_not, not_or, not_or, IsUnitMod, Nat.Coprime]
  constructor
  · rintro ⟨hzero, hge, hcoprime⟩
    exact ⟨by omega, by omega, not_not.1 hcoprime⟩
  · rintro ⟨hpos, hlt, hcoprime⟩
    exact ⟨by omega, by omega, not_not.2 hcoprime⟩

/-- The units modulo `n` in ascending order. -/
def units (n : ℕ) : List ℕ := (candidates n).filter fun component => component.Coprime n

theorem mem_units {component : ℕ} : component ∈ units n ↔ IsUnitMod n component := by
  rw [units, List.mem_filter, candidates, List.mem_range'_1, decide_eq_true_eq, IsUnitMod]
  constructor
  · rintro ⟨⟨hpos, hlt⟩, hcoprime⟩
    exact ⟨by omega, by omega, hcoprime⟩
  · rintro ⟨hpos, hlt, hcoprime⟩
    exact ⟨⟨by omega, by omega⟩, hcoprime⟩

theorem units_pairwise (n : ℕ) : (units n).Pairwise (· < ·) := by
  rw [units, candidates]
  exact List.Pairwise.filter _ (List.pairwise_lt_range' 1 Nat.one_pos)

end FrankenSim.Cbc
