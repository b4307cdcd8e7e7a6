import FrankenSim.CertKernel.Dyadic

/-!
# Directed rounding

A rounded result is one neighbour of the exact one; the comparison with the exact result tells
which, and the other bound is the next float on the other side.
-/
namespace FrankenSim.CertKernel

open Library

structure BoundPair where
  lo : Binary64
  hi : Binary64
  deriving DecidableEq

def nextUp (value : Binary64) : Binary64 :=
  if value.isNan || value == Binary64.infinity then value
  else if value.magnitude = 0 then ⟨1⟩
  else if Binary64.lt Binary64.zero value then ⟨value.bits + 1⟩
  else ⟨value.bits - 1⟩

def nextDown (value : Binary64) : Binary64 :=
  if value.isNan || value == Binary64.negInfinity then value
  else if value.magnitude = 0 then Binary64.neg ⟨1⟩
  else if Binary64.lt Binary64.zero value then ⟨value.bits - 1⟩
  else ⟨value.bits + 1⟩

def BoundPair.around (candidate : Binary64) : Ordering → BoundPair
  | .lt => ⟨candidate, nextUp candidate⟩
  | .eq => ⟨candidate, candidate⟩
  | .gt => ⟨nextDown candidate, candidate⟩

/-- `f64::MAX`. -/
def MAX : Binary64 := Binary64.ofMagnitude false (Binary64.infinite - 1)

def nonfiniteResult (value : Binary64) (finiteOperands : Bool) : Option BoundPair :=
  if value.isNan then none
  else if finiteOperands && value == Binary64.infinity then some ⟨MAX, Binary64.infinity⟩
  else if finiteOperands && value == Binary64.negInfinity then
    some ⟨Binary64.negInfinity, MAX.neg⟩
  else some ⟨value, value⟩

def underflowPair (negative : Bool) : BoundPair :=
  if negative then ⟨Binary64.neg ⟨1⟩, Binary64.zero.neg⟩ else ⟨Binary64.zero, ⟨1⟩⟩

/-- Multiplication, given the product of the hardware. -/
def directedMul (product left right : Binary64) : Except Fault (Option BoundPair) :=
  if !left.isFinite || !right.isFinite || !product.isFinite then
    .ok (nonfiniteResult product (left.isFinite && right.isFinite))
  else if left.magnitude = 0 ∨ right.magnitude = 0 then .ok (some ⟨product, product⟩)
  else if product.magnitude = 0 then
    .ok (some (underflowPair (left.negative ^^ right.negative)))
  else do
    let dleft ← Dyadic.fromF64 left
    let dright ← Dyadic.fromF64 right
    let exact ← dleft.mul dright
    let rounded ← Dyadic.fromF64 product
    let ordering ← rounded.cmp exact
    .ok (some (.around product ordering))

/-- Division, given the quotient of the hardware. -/
def directedDiv (quotient numerator denominator : Binary64) : Except Fault (Option BoundPair) :=
  if denominator.magnitude = 0 then .ok none
  else if !numerator.isFinite || !denominator.isFinite || !quotient.isFinite then
    .ok (nonfiniteResult quotient (numerator.isFinite && denominator.isFinite))
  else if numerator.magnitude = 0 then .ok (some ⟨quotient, quotient⟩)
  else if quotient.magnitude = 0 then
    .ok (some (underflowPair (numerator.negative ^^ denominator.negative)))
  else do
    let dquotient ← Dyadic.fromF64 quotient
    let ddenominator ← Dyadic.fromF64 denominator
    let roundedProduct ← dquotient.mul ddenominator
    let exactNumerator ← Dyadic.fromF64 numerator
    let productVsNumerator ← roundedProduct.cmp exactNumerator
    let quotientVsExact :=
      if denominator.negative then productVsNumerator.swap else productVsNumerator
    .ok (some (.around quotient quotientVsExact))

/-- The square of a float against a dyadic number. -/
def squareCmp (root : Binary64) (exact : Dyadic) : Except Fault Ordering := do
  let d ← Dyadic.fromF64 root
  let square ← d.mul d
  square.cmp exact

/-- Down while the square is above, on fuel. -/
def descend (exact : Dyadic) : ℕ → Binary64 → Except Fault Binary64
  | 0, _ => .error .endless
  | fuel + 1, lower => do
    let ordering ← squareCmp lower exact
    if ordering = .gt then descend exact fuel (nextDown lower) else .ok lower

/-- Up while the square is below, on fuel. -/
def ascend (exact : Dyadic) : ℕ → Binary64 → Except Fault Binary64
  | 0, _ => .error .endless
  | fuel + 1, upper => do
    let ordering ← squareCmp upper exact
    if ordering = .lt then ascend exact fuel (nextUp upper) else .ok upper

/-- The square root, given a root to start from; the fuel is the number of magnitudes. -/
def directedSqrt (root value : Binary64) : Except Fault BoundPair :=
  if value.magnitude = 0 ∨ value = Binary64.infinity then .ok ⟨value, value⟩
  else do
    let exact ← Dyadic.fromF64 value
    let lower ← descend exact (Binary64.infinite + 1) root
    let ordering ← squareCmp lower exact
    if ordering = .eq then .ok ⟨lower, lower⟩
    else do
      let upper ← ascend exact (Binary64.infinite + 1) (nextUp lower)
      .ok ⟨lower, upper⟩

section Neighbours

variable {x y : Binary64} {r : ℚ}

theorem neg_ofNat_one : Binary64.neg ⟨1⟩ = Binary64.ofMagnitude true 1 := by decide

theorem toNat_bits (x : Binary64) :
    x.bits.toNat = (if x.negative then 2 ^ 63 else 0) + x.magnitude := by
  have hbits := x.bits.toNat_lt
  unfold Binary64.negative Binary64.magnitude
  split
  case isTrue h =>
    rw [decide_eq_true_eq] at h
    omega
  case isFalse h =>
    rw [decide_eq_true_eq] at h
    omega

theorem mk_eq_ofMagnitude {bits : UInt64} {sign : Bool} {m : ℕ}
    (h : bits.toNat = (if sign then 2 ^ 63 else 0) + m) :
    (⟨bits⟩ : Binary64) = Binary64.ofMagnitude sign m := by
  unfold Binary64.ofMagnitude
  rw [← h, UInt64.ofNat_toNat]

theorem zero_lt_iff (hx : x.isNan = false) :
    Binary64.lt Binary64.zero x ↔ x.negative = false ∧ x.magnitude ≠ 0 := by
  have hzero : Binary64.zero.key = 0 := by decide
  rw [Binary64.lt_iff (by decide) hx, hzero, Binary64.key]
  cases x.negative
  · simp only [Bool.false_eq_true, if_false, true_and]
    omega
  · simp only [if_true, Bool.true_eq_false, false_and, iff_false]
    omega

theorem toNat_bits_add_one (h : x.bits.toNat + 1 < 2 ^ 64) :
    (x.bits + 1).toNat = x.bits.toNat + 1 := by
  rw [UInt64.toNat_add, UInt64.toNat_one, Nat.mod_eq_of_lt h]

theorem toNat_bits_sub_one (h : 0 < x.bits.toNat) : (x.bits - 1).toNat = x.bits.toNat - 1 := by
  apply UInt64.toNat_sub_of_le
  rw [UInt64.le_iff_toNat_le, UInt64.toNat_one]
  exact h

/-- The crate's successor is the next larger float. -/
theorem nextUp_eq (x : Binary64) : nextUp x = x.nextUp := by
  have hmagnitude := x.magnitude_lt
  have hbits := toNat_bits x
  have htop : Binary64.infinite = 2047 * 2 ^ 52 := rfl
  unfold nextUp Binary64.nextUp
  split_ifs with hlast hzero hpos hneg hneg
  · rfl
  · exact mk_eq_ofMagnitude (by decide)
  · rw [Bool.or_eq_true, not_or, Bool.not_eq_true] at hlast
    rw [((zero_lt_iff hlast.1).1 hpos).1] at hneg
    cases hneg
  · rw [Bool.not_eq_true] at hneg
    simp only [hneg, Bool.false_eq_true, if_false, zero_add] at hbits
    apply mk_eq_ofMagnitude
    rw [toNat_bits_add_one (by omega), hbits]
    simp
  · simp only [hneg, if_true] at hbits
    apply mk_eq_ofMagnitude
    rw [toNat_bits_sub_one (by omega), hbits]
    simp only [if_true]
    omega
  · rw [Bool.or_eq_true, not_or, Bool.not_eq_true] at hlast
    rw [Bool.not_eq_true] at hneg
    exact absurd ((zero_lt_iff hlast.1).2 ⟨hneg, hzero⟩) hpos

theorem nextDown_eq (x : Binary64) : nextDown x = x.nextDown := by
  have hmagnitude := x.magnitude_lt
  have hbits := toNat_bits x
  have htop : Binary64.infinite = 2047 * 2 ^ 52 := rfl
  unfold nextDown Binary64.nextDown
  split_ifs with hlast hzero hpos hneg hneg
  · rfl
  · exact neg_ofNat_one
  · rw [Bool.or_eq_true, not_or, Bool.not_eq_true] at hlast
    rw [((zero_lt_iff hlast.1).1 hpos).1] at hneg
    cases hneg
  · rw [Bool.not_eq_true] at hneg
    simp only [hneg, Bool.false_eq_true, if_false, zero_add] at hbits
    apply mk_eq_ofMagnitude
    rw [toNat_bits_sub_one (by omega), hbits]
    simp
  · rw [Bool.or_eq_true, not_or, Bool.not_eq_true] at hlast
    have hle := Binary64.isNan_eq_false.1 hlast.1
    simp only [hneg, if_true] at hbits
    apply mk_eq_ofMagnitude
    rw [toNat_bits_add_one (by omega), hbits]
    simp only [if_true]
    omega
  · rw [Bool.or_eq_true, not_or, Bool.not_eq_true] at hlast
    rw [Bool.not_eq_true] at hneg
    exact absurd ((zero_lt_iff hlast.1).2 ⟨hneg, hzero⟩) hpos

/-- The keys around a finite float. -/
theorem key_nextUp (hx : x.isFinite) : (nextUp x).isNan = false ∧ (nextUp x).key = x.key + 1 := by
  have hmagnitude := Binary64.isFinite_iff.1 hx
  have hnan := Binary64.isNan_of_isFinite hx
  have htop : Binary64.infinite = 2047 * 2 ^ 52 := rfl
  rw [nextUp_eq]
  unfold Binary64.nextUp
  simp only [hnan, Bool.false_or, beq_iff_eq]
  split_ifs with hinf hzero hneg
  · rw [hinf] at hx
    exact absurd hx (by decide)
  · rw [Binary64.key_ofMagnitude _ (by decide), Binary64.key, hzero]
    exact ⟨Binary64.isNan_ofMagnitude _ (by decide), by simp⟩
  · rw [Binary64.key_ofMagnitude _ (by omega), Binary64.key, if_pos hneg]
    refine ⟨Binary64.isNan_ofMagnitude _ (by omega), ?_⟩
    simp only [if_true]
    omega
  · rw [Binary64.key_ofMagnitude _ (by omega), Binary64.key, if_neg hneg]
    refine ⟨Binary64.isNan_ofMagnitude _ (by omega), ?_⟩
    simp

theorem key_nextDown (hx : x.isFinite) :
    (nextDown x).isNan = false ∧ (nextDown x).key = x.key - 1 := by
  have hmagnitude := Binary64.isFinite_iff.1 hx
  have hnan := Binary64.isNan_of_isFinite hx
  have htop : Binary64.infinite = 2047 * 2 ^ 52 := rfl
  rw [nextDown_eq]
  unfold Binary64.nextDown
  simp only [hnan, Bool.false_or, beq_iff_eq]
  split_ifs with hinf hzero hneg
  · rw [hinf] at hx
    exact absurd hx (by decide)
  · rw [Binary64.key_ofMagnitude _ (by decide), Binary64.key, hzero]
    exact ⟨Binary64.isNan_ofMagnitude _ (by decide), by simp⟩
  · rw [Binary64.key_ofMagnitude _ (by omega), Binary64.key, if_pos hneg]
    refine ⟨Binary64.isNan_ofMagnitude _ (by omega), ?_⟩
    simp only [if_true]
    omega
  · rw [Binary64.key_ofMagnitude _ (by omega), Binary64.key, if_neg hneg]
    refine ⟨Binary64.isNan_ofMagnitude _ (by omega), ?_⟩
    simp only [Bool.false_eq_true, if_false]
    omega

theorem toRat_le_of_key (h : x.key ≤ y.key) : toRat x ≤ toRat y :=
  mul_le_mul_of_nonneg_right (Int.cast_le.2 (Binary64.value_mono h)) (zpow_nonneg (by norm_num) _)

theorem toRat_lt_iff : toRat x < toRat y ↔ x.key < y.key := by
  constructor
  · intro h
    by_contra hkey
    exact absurd (toRat_le_of_key (not_lt.1 hkey)) h.not_ge
  · intro h
    exact mul_lt_mul_of_pos_right (Int.cast_lt.2 (Binary64.value_lt_value h))
      (zpow_pos (by norm_num) _)

end Neighbours

end FrankenSim.CertKernel
