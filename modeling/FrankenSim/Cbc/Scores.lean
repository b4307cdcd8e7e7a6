import FrankenSim.Cbc.ExactNat
import Mathlib.Data.Nat.Size

/-!
# Exact lattice scores

The score of a candidate is the sum over all points of products of kernel numerators. The
running limbs of a scan denote its terms so far.
-/
namespace FrankenSim.Cbc

open Library

def bitWidth (value : ℕ) : ℕ := Nat.size value

/-- The numerator of `1 + B₂(residue / n)` over `6 n²`. -/
def exactKernelNumerator (n residue : ℕ) : ℕ :=
  7 * n * n + 6 * residue * residue - 6 * residue * n

def latticeResidue (point generator n : ℕ) : ℕ := point * generator % n

/-- The product of the kernel numerators of a point over the components of a prefix. -/
def kernelProduct (n point : ℕ) (generators : List ℕ) : ℕ :=
  (generators.map fun generator =>
    exactKernelNumerator n (latticeResidue point generator n)).prod

/-- The terms of a score over the first points: a product of the prefix and the kernel of the
candidate. -/
def scanTerms (n candidate : ℕ) (generators : List ℕ) (points : ℕ) : List (List ℕ × ℕ) :=
  (List.range points).map fun point =>
    (Nat.digits RADIX (kernelProduct n point generators),
      exactKernelNumerator n (latticeResidue point candidate n))

/-- The running score after these terms, in calls of one budget. -/
def runningScore (growTo budget : ℕ) (terms : List (List ℕ × ℕ)) : Except Fault (List ℕ) :=
  terms.foldlM (fun score term => accumulate growTo budget score term.1 term.2) []

section Kernel

variable {n : ℕ}

theorem latticeResidue_lt (hn : 0 < n) (point generator : ℕ) :
    latticeResidue point generator n < n :=
  Nat.mod_lt _ hn

theorem exactKernelNumerator_le {residue : ℕ} (h : residue < n) :
    exactKernelNumerator n residue ≤ 7 * (n * n) := by
  have hmul : residue * residue ≤ residue * n := Nat.mul_le_mul_left _ h.le
  rw [exactKernelNumerator, mul_assoc, mul_assoc, mul_assoc]
  omega

theorem exactKernelNumerator_lt_pow {residue : ℕ} (h : residue < n) :
    exactKernelNumerator n residue < 2 ^ bitWidth (7 * (n * n)) :=
  lt_of_le_of_lt (exactKernelNumerator_le h) (Nat.lt_size_self _)

theorem kernelProduct_lt_pow (hn : 0 < n) (point : ℕ) {generators : List ℕ}
    (hne : generators ≠ []) :
    kernelProduct n point generators < 2 ^ (bitWidth (7 * (n * n)) * generators.length) := by
  induction generators with
  | nil => exact absurd rfl hne
  | cons generator generators ih =>
    have hkernel := exactKernelNumerator_lt_pow (latticeResidue_lt hn point generator)
    rw [List.length_cons, mul_add, mul_one, pow_add, mul_comm (2 ^ _), kernelProduct,
      List.map_cons, List.prod_cons]
    by_cases hnil : generators = []
    · subst hnil
      simpa using hkernel
    · exact Nat.mul_lt_mul'' hkernel (ih hnil)

theorem kernelProduct_concat (n point : ℕ) (generators : List ℕ) (generator : ℕ) :
    kernelProduct n point (generators ++ [generator]) =
      kernelProduct n point generators *
        exactKernelNumerator n (latticeResidue point generator n) := by
  simp [kernelProduct]

theorem lt_radix_pow {m bits limbs : ℕ} (hm : m < 2 ^ bits) (hlimbs : (bits + 31) / 32 ≤ limbs) :
    m < RADIX ^ limbs := by
  have hpow : RADIX ^ limbs = 2 ^ (32 * limbs) := by
    rw [pow_mul]
    rfl
  rw [hpow]
  exact hm.trans_le (Nat.pow_le_pow_right (by decide) (by omega))

/-- The kernel products of the first points add up to the value of their terms. -/
def scanValue (n candidate : ℕ) (generators : List ℕ) (points : ℕ) : ℕ :=
  ((List.range points).map fun point => kernelProduct n point (generators ++ [candidate])).sum

theorem scanValue_succ (n candidate : ℕ) (generators : List ℕ) (points : ℕ) :
    scanValue n candidate generators (points + 1) =
      scanValue n candidate generators points +
        kernelProduct n points (generators ++ [candidate]) := by
  simp [scanValue, List.range_succ]

theorem scanValue_le {candidate bound : ℕ} {generators : List ℕ}
    (hbound : ∀ point, kernelProduct n point (generators ++ [candidate]) ≤ bound) (points : ℕ) :
    scanValue n candidate generators points ≤ points * bound := by
  induction points with
  | zero => simp [scanValue]
  | succ points ih =>
    have hproduct := hbound points
    rw [scanValue_succ, add_mul, one_mul]
    omega

/-- The next operation of a scan: the product over the prefix, its kernel and the limbs that it
asks for. -/
def ScanFits (n candidate : ℕ) (generators : List ℕ) (cap growTo point : ℕ) (score : List ℕ) :
    Prop :=
  SizesFit score (Nat.digits RADIX (kernelProduct n point generators))
    (exactKernelNumerator n (latticeResidue point candidate n))
    ((Nat.digits RADIX (kernelProduct n point generators)).length +
      (factorLimbsU32 (exactKernelNumerator n (latticeResidue point candidate n))).2 + 1)
    cap growTo

structure ScanBound (n candidate : ℕ) (generators : List ℕ) (cap : ℕ) : Prop where
  factor_lt : ∀ point < n, exactKernelNumerator n (latticeResidue point candidate n) < 2 ^ 128
  needed_le : ∀ point < n, (Nat.digits RADIX (kernelProduct n point generators)).length +
    (factorLimbsU32 (exactKernelNumerator n (latticeResidue point candidate n))).2 + 1 ≤ cap
  value_lt : ∀ point < n, scanValue n candidate generators (point + 1) < RADIX ^ cap

structure Scored (n candidate : ℕ) (generators : List ℕ) (cap points : ℕ) (score : List ℕ) :
    Prop where
  limbs_lt : ∀ x ∈ score, x < RADIX
  length_le : score.length ≤ cap
  value_eq : Nat.ofDigits RADIX score = scanValue n candidate generators points

section Scan

variable {candidate cap growTo : ℕ} {generators : List ℕ}

theorem ScanBound.scanFits (h : ScanBound n candidate generators cap) (hgrow : cap ≤ growTo)
    {point : ℕ} (hpoint : point < n) {score : List ℕ}
    (hscore : Scored n candidate generators cap point score) :
    ScanFits n candidate generators cap growTo point score := by
  have hneeded := h.needed_le point hpoint
  constructor
  · exact hscore.limbs_lt
  · exact fun x hx => Nat.digits_lt_base one_lt_radix hx
  · exact h.factor_lt point hpoint
  · exact hneeded
  · exact hgrow
  · exact hscore.length_le
  · omega
  · rw [hscore.value_eq, Nat.ofDigits_digits, ← kernelProduct_concat, ← scanValue_succ]
    exact h.value_lt point hpoint

/-- A scan by any exact accumulation denotes its terms so far, at every point. -/
theorem ScanBound.foldlM_spec (h : ScanBound n candidate generators cap) (hgrow : cap ≤ growTo)
    {accumulated : List ℕ → List ℕ → ℕ → Except Fault (List ℕ)}
    (hexact : ∀ {limbs src : List ℕ} {factor : ℕ},
      SizesFit limbs src factor (src.length + (factorLimbsU32 factor).2 + 1) cap growTo →
        ∃ final, accumulated limbs src factor = .ok final ∧ Summed limbs src factor cap final)
    {points : ℕ} (hpoints : points ≤ n) :
    ∃ score, (scanTerms n candidate generators points).foldlM
        (fun score term => accumulated score term.1 term.2) [] = .ok score ∧
      Scored n candidate generators cap points score := by
  induction points with
  | zero => exact ⟨[], rfl, by simp, Nat.zero_le _, rfl⟩
  | succ points ih =>
    obtain ⟨score, hscore, hscored⟩ := ih (by omega)
    obtain ⟨final, hfinal, hsum⟩ := hexact (h.scanFits hgrow (by omega) hscored)
    refine ⟨final, ?_, hsum.limbs_lt, hsum.length_le, ?_⟩
    · rw [scanTerms] at hscore
      rw [scanTerms, List.range_succ, List.map_append, List.foldlM_append, hscore]
      simp [bind, Except.bind, hfinal, pure, Except.pure]
    · rw [hsum.value_eq, hscored.value_eq, Nat.ofDigits_digits, scanValue_succ,
        kernelProduct_concat]

end Scan

end Kernel

end FrankenSim.Cbc
