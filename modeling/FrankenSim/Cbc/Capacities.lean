import FrankenSim.Cbc.Scores
import FrankenSim.Library.Refusals

/-!
# The admitted limb capacities

An admission derives its limb capacities from bit widths, apart from the arithmetic that uses
them. Every product and every running score of an admitted problem stays within them.
-/
namespace FrankenSim.Cbc

open Library

inductive CbcAdmissionError
  | invalidPointCount (pointCount : ℕ)
  | invalidDimension (dimension : ℕ)
  | estimateOverflow (quantity : String)
  | targetCapacityExceeded (quantity : String) (required limit : ℕ)
  deriving DecidableEq, Repr

/-- A `u32` number of points and a `usize` number of components. -/
structure CbcProblem where
  pointCount : ℕ
  dimension : ℕ
  three_le : 3 ≤ pointCount
  pointCount_lt : pointCount < RADIX
  dimension_pos : 0 < dimension
  dimension_le : dimension ≤ USIZE_MAX

def CbcProblem.new (pointCount dimension : ℕ) (hcount : pointCount < RADIX)
    (hdimension : dimension ≤ USIZE_MAX) : Except CbcAdmissionError CbcProblem :=
  if hfew : pointCount < 3 then .error (.invalidPointCount pointCount)
  else if hzero : dimension = 0 then .error (.invalidDimension dimension)
  else .ok ⟨pointCount, dimension, by omega, hcount, by omega, hdimension⟩

/-- `u128::MAX + 1`. -/
def U128_CARDINALITY : ℕ := 340282366920938463463374607431768211456

/-- `isize::MAX`. -/
def ISIZE_MAX : ℕ := 9223372036854775807

def LIMB_BYTES : ℕ := 4

def checked (quantity : String) (x : ℕ) : Except CbcAdmissionError ℕ :=
  if x < U128_CARDINALITY then .ok x else .error (.estimateOverflow quantity)

def targetBound (quantity : String) (required limit : ℕ) : Except CbcAdmissionError Unit :=
  if limit < required then .error (.targetCapacityExceeded quantity required limit) else .ok ()

def ceilLog2 (value : ℕ) : ℕ := Nat.size (value - 1)

def limbsForBits (bits : ℕ) : Except CbcAdmissionError ℕ := do
  let rounded ← checked "limb rounding" (bits + 31)
  .ok (rounded / 32)

structure LimbCapacities where
  kernelFactorLimbs : ℕ
  maxProductLimbs : ℕ
  maxSourceProductLimbs : ℕ
  maxScoreLimbs : ℕ
  productCapacityLimbs : ℕ
  scoreCapacityLimbs : ℕ
  deriving DecidableEq, Repr

/-- The limb capacities of an estimate, with the bounds on what a vector of limbs can hold. The
other bounds of an estimate only refuse more problems. -/
def limbCapacities (problem : CbcProblem) : Except CbcAdmissionError LimbCapacities := do
  let points := problem.pointCount
  let laterDimensions := problem.dimension - 1
  let pointSquare ← checked "point-count square" (points * points)
  let kernelNumeratorUpper ← checked "kernel numerator" (7 * pointSquare)
  let kernelBits := bitWidth kernelNumeratorUpper
  let kernelFactorLimbs ← limbsForBits kernelBits
  let maxProductBits ← checked "product bit width" (kernelBits * problem.dimension)
  let maxProductLimbs ← limbsForBits maxProductBits
  let maxSourceProductBits ← checked "source-product bit width" (kernelBits * laterDimensions)
  let sourceLimbs ← limbsForBits maxSourceProductBits
  let maxSourceProductLimbs := max sourceLimbs 1
  let maxScoreBits ← checked "score bit width" (maxProductBits + ceilLog2 points)
  let maxScoreLimbs ← limbsForBits maxScoreBits
  let productCapacityLimbs ← checked "product limb capacity"
    (maxSourceProductLimbs + kernelFactorLimbs + 1)
  let scoreCapacityLimbs := max productCapacityLimbs maxScoreLimbs
  targetBound "product element capacity" productCapacityLimbs USIZE_MAX
  targetBound "product allocation bytes" (productCapacityLimbs * LIMB_BYTES) ISIZE_MAX
  targetBound "score element capacity" scoreCapacityLimbs USIZE_MAX
  targetBound "score allocation bytes" (scoreCapacityLimbs * LIMB_BYTES) ISIZE_MAX
  .ok ⟨kernelFactorLimbs, maxProductLimbs, maxSourceProductLimbs, maxScoreLimbs,
    productCapacityLimbs, scoreCapacityLimbs⟩

/-- One more component folded into the product of a point, unless an update was refused. -/
def updateProduct (n limbsCapacity capacityLimbs scratchCapacity point : ℕ)
    (held : Except ℕ Unit × List ℕ) (generator : ℕ) : Except Fault (Except ℕ Unit × List ℕ) :=
  match held.1 with
  | .ok () =>
    mulAssignFactorScratch held.2 limbsCapacity
      (exactKernelNumerator n (latticeResidue point generator n)) capacityLimbs scratchCapacity
  | .error _ => .ok held

/-- The product of a point that starts at one, after the updates of a prefix. -/
def updatedProduct (n limbsCapacity capacityLimbs scratchCapacity point : ℕ) (z : List ℕ) :
    Except Fault (Except ℕ Unit × List ℕ) :=
  z.foldlM (updateProduct n limbsCapacity capacityLimbs scratchCapacity point) (.ok (), [1])

section Admitted

variable {problem : CbcProblem} {capacities : LimbCapacities}

theorem checked_ok {quantity : String} {x y : ℕ} (h : checked quantity x = .ok y) : y = x := by
  unfold checked at h
  split at h
  · exact (Except.ok.inj h).symm
  · cases h

theorem limbsForBits_ok {bits limbs : ℕ} (h : limbsForBits bits = .ok limbs) :
    limbs = (bits + 31) / 32 := by
  obtain ⟨rounded, hrounded, hdiv⟩ := bind_eq_ok h
  rw [← Except.ok.inj hdiv, checked_ok hrounded]

theorem targetBound_ok {quantity : String} {required limit : ℕ} {u : Unit}
    (h : targetBound quantity required limit = .ok u) : required ≤ limit := by
  unfold targetBound at h
  split at h
  · cases h
  · omega

structure Admitted (problem : CbcProblem) (capacities : LimbCapacities) : Prop where
  kernelFactor : capacities.kernelFactorLimbs =
    (bitWidth (7 * (problem.pointCount * problem.pointCount)) + 31) / 32
  sourceProduct : capacities.maxSourceProductLimbs =
    max ((bitWidth (7 * (problem.pointCount * problem.pointCount)) *
      (problem.dimension - 1) + 31) / 32) 1
  score : capacities.maxScoreLimbs =
    (bitWidth (7 * (problem.pointCount * problem.pointCount)) * problem.dimension +
      ceilLog2 problem.pointCount + 31) / 32
  productCapacity : capacities.productCapacityLimbs =
    capacities.maxSourceProductLimbs + capacities.kernelFactorLimbs + 1
  scoreCapacity : capacities.scoreCapacityLimbs =
    max capacities.productCapacityLimbs capacities.maxScoreLimbs
  allocation : capacities.productCapacityLimbs ≤ VEC_LIMBS_MAX

theorem admitted_of_ok (h : limbCapacities problem = .ok capacities) :
    Admitted problem capacities := by
  obtain ⟨square, hsquare, h⟩ := bind_eq_ok h
  obtain ⟨upper, hupper, h⟩ := bind_eq_ok h
  obtain ⟨factorLimbs, hfactorLimbs, h⟩ := bind_eq_ok h
  obtain ⟨productBits, hproductBits, h⟩ := bind_eq_ok h
  obtain ⟨productLimbs, hproductLimbs, h⟩ := bind_eq_ok h
  obtain ⟨sourceBits, hsourceBits, h⟩ := bind_eq_ok h
  obtain ⟨sourceLimbs, hsourceLimbs, h⟩ := bind_eq_ok h
  obtain ⟨scoreBits, hscoreBits, h⟩ := bind_eq_ok h
  obtain ⟨scoreLimbs, hscoreLimbs, h⟩ := bind_eq_ok h
  obtain ⟨capacity, hcapacity, h⟩ := bind_eq_ok h
  obtain ⟨_, _, h⟩ := bind_eq_ok h
  obtain ⟨_, hallocation, h⟩ := bind_eq_ok h
  obtain ⟨_, _, h⟩ := bind_eq_ok h
  obtain ⟨_, _, h⟩ := bind_eq_ok h
  have hbytes := targetBound_ok hallocation
  rw [checked_ok hsquare] at hupper
  rw [checked_ok hupper] at hfactorLimbs hproductBits hsourceBits
  rw [checked_ok hproductBits] at hscoreBits
  rw [checked_ok hsourceBits] at hsourceLimbs
  rw [checked_ok hscoreBits] at hscoreLimbs
  rw [← Except.ok.inj h]
  refine ⟨limbsForBits_ok hfactorLimbs, ?_, limbsForBits_ok hscoreLimbs, checked_ok hcapacity, rfl,
    ?_⟩
  · rw [← limbsForBits_ok hsourceLimbs]
  · simp only [LIMB_BYTES, ISIZE_MAX, VEC_LIMBS_MAX] at *
    omega

theorem Admitted.factor_length (h : Admitted problem capacities) (point generator : ℕ) :
    exactKernelNumerator problem.pointCount
        (latticeResidue point generator problem.pointCount) < 2 ^ 128 ∧
      (factorLimbsU32 (exactKernelNumerator problem.pointCount
        (latticeResidue point generator problem.pointCount))).2 ≤
          capacities.kernelFactorLimbs := by
  have hn : 0 < problem.pointCount := by
    have := problem.three_le
    omega
  have hresidue := latticeResidue_lt hn point generator
  have hsmall : exactKernelNumerator problem.pointCount
      (latticeResidue point generator problem.pointCount) < 2 ^ 128 := by
    have hle := exactKernelNumerator_le hresidue
    have hsquare : problem.pointCount * problem.pointCount < RADIX * RADIX :=
      Nat.mul_lt_mul'' problem.pointCount_lt problem.pointCount_lt
    have hbound : 7 * (RADIX * RADIX) < 2 ^ 128 := by decide
    omega
  refine ⟨hsmall, ?_⟩
  rw [(factorLimbsU32_spec hsmall).1, Nat.digits_length_le_iff one_lt_radix]
  exact lt_radix_pow (exactKernelNumerator_lt_pow hresidue) h.kernelFactor.ge

theorem Admitted.product_length (h : Admitted problem capacities) (point : ℕ)
    {generators : List ℕ} (hlength : generators.length < problem.dimension) :
    (Nat.digits RADIX (kernelProduct problem.pointCount point generators)).length ≤
      capacities.maxSourceProductLimbs := by
  have hn : 0 < problem.pointCount := by
    have := problem.three_le
    omega
  rw [Nat.digits_length_le_iff one_lt_radix, h.sourceProduct]
  by_cases hnil : generators = []
  · subst hnil
    have hone : kernelProduct problem.pointCount point [] = 1 := rfl
    rw [hone]
    exact Nat.one_lt_pow (by omega) one_lt_radix
  · have hmono : bitWidth (7 * (problem.pointCount * problem.pointCount)) * generators.length ≤
        bitWidth (7 * (problem.pointCount * problem.pointCount)) * (problem.dimension - 1) :=
      Nat.mul_le_mul_left _ (by omega)
    exact lt_radix_pow (kernelProduct_lt_pow hn point hnil) (by omega)

theorem Admitted.score_lt (h : Admitted problem capacities) (candidate : ℕ)
    {generators : List ℕ} (hlength : generators.length < problem.dimension) {points : ℕ}
    (hpoints : points < problem.pointCount) :
    scanValue problem.pointCount candidate generators (points + 1) <
      RADIX ^ capacities.scoreCapacityLimbs := by
  have hn : 0 < problem.pointCount := by omega
  have hproduct (point : ℕ) : kernelProduct problem.pointCount point (generators ++ [candidate]) <
      2 ^ (bitWidth (7 * (problem.pointCount * problem.pointCount)) *
        (generators.length + 1)) := by
    have hlt := kernelProduct_lt_pow hn point
      (List.append_ne_nil_of_right_ne_nil generators (List.cons_ne_nil candidate []))
    rwa [List.length_append, List.length_singleton] at hlt
  have hvalue := scanValue_le (fun point => (hproduct point).le) points
  have hlast := hproduct points
  have hcount : points + 1 ≤ 2 ^ ceilLog2 problem.pointCount := by
    have := Nat.lt_size_self (problem.pointCount - 1)
    rw [ceilLog2]
    omega
  have hbits : 2 ^ (bitWidth (7 * (problem.pointCount * problem.pointCount)) *
      (generators.length + 1)) ≤
        2 ^ (bitWidth (7 * (problem.pointCount * problem.pointCount)) * problem.dimension) :=
    Nat.pow_le_pow_right (by decide) (Nat.mul_le_mul_left _ (by omega))
  have hscore : scanValue problem.pointCount candidate generators (points + 1) <
      2 ^ (bitWidth (7 * (problem.pointCount * problem.pointCount)) * problem.dimension +
        ceilLog2 problem.pointCount) := by
    rw [scanValue_succ]
    calc scanValue problem.pointCount candidate generators points +
          kernelProduct problem.pointCount points (generators ++ [candidate])
        < (points + 1) * 2 ^ (bitWidth (7 * (problem.pointCount * problem.pointCount)) *
            (generators.length + 1)) := by rw [add_mul, one_mul]; omega
      _ ≤ 2 ^ ceilLog2 problem.pointCount *
            2 ^ (bitWidth (7 * (problem.pointCount * problem.pointCount)) *
              problem.dimension) := Nat.mul_le_mul hcount hbits
      _ = _ := by rw [pow_add, mul_comm]
  apply lt_radix_pow hscore
  rw [h.scoreCapacity, h.score]
  exact le_max_right _ _

/-- The score capacity is a cap for every scan of the problem. -/
theorem Admitted.scanBound (h : Admitted problem capacities) (candidate : ℕ)
    {generators : List ℕ} (hlength : generators.length < problem.dimension) :
    ScanBound problem.pointCount candidate generators capacities.scoreCapacityLimbs where
  factor_lt point _ := (h.factor_length point candidate).1
  needed_le point _ := by
    have hfactor := (h.factor_length point candidate).2
    have hproduct := h.product_length point hlength
    have hproductCapacity := h.productCapacity
    have hscoreCapacity := h.scoreCapacity
    omega
  value_lt _ hpoint := h.score_lt candidate hlength hpoint

theorem Admitted.scratchFits (h : Admitted problem capacities) (point generator : ℕ)
    {generators : List ℕ} (hlength : generators.length < problem.dimension)
    {limbsCapacity scratchCapacity : ℕ}
    (hscratch : capacities.productCapacityLimbs ≤ scratchCapacity) :
    ScratchFits (Nat.digits RADIX (kernelProduct problem.pointCount point generators))
      limbsCapacity (exactKernelNumerator problem.pointCount
        (latticeResidue point generator problem.pointCount))
      capacities.productCapacityLimbs scratchCapacity := by
  obtain ⟨_, hfactorLength⟩ := h.factor_length point generator
  have hproduct := h.product_length point hlength
  have hproductCapacity := h.productCapacity
  refine .inr (.inr ⟨by omega, ?_⟩)
  exact le_max_of_le_left (by omega)

/-- A product update multiplies by the kernel of the new component. -/
theorem Admitted.update_eq (h : Admitted problem capacities) (point generator : ℕ)
    {generators : List ℕ} (hlength : generators.length < problem.dimension)
    (limbsCapacity : ℕ) {scratchCapacity : ℕ}
    (hscratch : capacities.productCapacityLimbs ≤ scratchCapacity) :
    mulAssignFactorScratch (Nat.digits RADIX (kernelProduct problem.pointCount point generators))
      limbsCapacity (exactKernelNumerator problem.pointCount
        (latticeResidue point generator problem.pointCount))
      capacities.productCapacityLimbs scratchCapacity =
        .ok (.ok (), Nat.digits RADIX
          (kernelProduct problem.pointCount point (generators ++ [generator]))) := by
  obtain ⟨hfactor, _⟩ := h.factor_length point generator
  have hproduct := h.product_length point hlength
  have hproductCapacity := h.productCapacity
  have hallocation := h.allocation
  have hspec := (mulAssignFactorScratch_spec
    (fun x hx => Nat.digits_lt_base one_lt_radix hx)
    (show (Nat.digits RADIX (kernelProduct problem.pointCount point generators)).length ≤
      VEC_LIMBS_MAX by omega) hfactor limbsCapacity capacities.productCapacityLimbs
      scratchCapacity).1 (h.scratchFits point generator hlength hscratch)
  rw [hspec, Nat.ofDigits_digits, kernelProduct_concat]

/-- A prefix of updates leaves the product of the kernels of its components. -/
theorem Admitted.updatedProduct_eq (h : Admitted problem capacities) (point : ℕ) {z : List ℕ}
    (hlength : z.length ≤ problem.dimension) (limbsCapacity : ℕ) {scratchCapacity : ℕ}
    (hscratch : capacities.productCapacityLimbs ≤ scratchCapacity) :
    updatedProduct problem.pointCount limbsCapacity capacities.productCapacityLimbs
      scratchCapacity point z =
        .ok (.ok (), Nat.digits RADIX (kernelProduct problem.pointCount point z)) := by
  induction z using List.reverseRecOn with
  | nil =>
    rw [kernelProduct, List.map_nil, List.prod_nil, Nat.digits_of_lt RADIX 1 one_ne_zero
      one_lt_radix]
    rfl
  | append_singleton z generator ih =>
    rw [List.length_append, List.length_singleton] at hlength
    rw [updatedProduct] at ih ⊢
    rw [List.foldlM_append, ih (by omega)]
    change updateProduct problem.pointCount limbsCapacity capacities.productCapacityLimbs
      scratchCapacity point _ generator >>= pure = _
    rw [bind_pure, updateProduct]
    exact h.update_eq point generator (by omega) limbsCapacity hscratch

end Admitted

end FrankenSim.Cbc
