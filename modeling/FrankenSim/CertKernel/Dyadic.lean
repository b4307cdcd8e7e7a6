import FrankenSim.Library.Binary64
import FrankenSim.Library.ScaledOrder

/-!
# Exact dyadic numbers

Every finite float is an integer times a power of two. Products of two floats fit 128 bits, so
that a rounded result can be compared with the exact one.
-/
namespace FrankenSim.CertKernel

open Library

/-- What would stop the kernel or make it wrong: a number that is not finite, bits that leave
the 128 of a significand, or a loop without end. -/
inductive Fault
  | notFinite
  | multiplication
  | shift
  | endless
  deriving DecidableEq, Repr

structure Dyadic where
  negative : Bool
  significand : ℕ
  exponent : ℤ
  deriving DecidableEq, Repr

namespace Dyadic

/-- The zero bits at the low end, up to `fuel` of them. -/
def trailingZeros : ℕ → ℕ → ℕ
  | 0, _ => 0
  | fuel + 1, s => if s % 2 = 0 then trailingZeros fuel (s / 2) + 1 else 0

def normalized (d : Dyadic) : Dyadic :=
  if d.significand = 0 then ⟨false, 0, 0⟩
  else
    let zeros := trailingZeros 128 d.significand
    ⟨d.negative, d.significand / 2 ^ zeros, d.exponent + zeros⟩

def fromF64 (value : Binary64) : Except Fault Dyadic :=
  if value.isFinite then
    let bits := value.bits.toNat
    let negative : Bool := bits / 2 ^ 63 ≠ 0
    let rawExponent : ℕ := bits / 2 ^ 52 % 2 ^ 11
    let fraction := bits % 2 ^ 52
    let (significand, exponent) : ℕ × ℤ :=
      if rawExponent = 0 then (fraction, -1074)
      else (2 ^ 52 + fraction, (rawExponent : ℤ) - 1023 - 52)
    .ok (normalized ⟨negative && significand ≠ 0, significand, exponent⟩)
  else .error .notFinite

def mul (d other : Dyadic) : Except Fault Dyadic :=
  if d.significand * other.significand < 2 ^ 128 then
    .ok (normalized ⟨d.negative ^^ other.negative, d.significand * other.significand,
      d.exponent + other.exponent⟩)
  else .error .multiplication

/-- `significand << shift`. -/
def shifted (significand shift : ℕ) : Except Fault ℕ :=
  if shift < 128 ∧ significand * 2 ^ shift < 2 ^ 128 then .ok (significand * 2 ^ shift)
  else .error .shift

def cmpMagnitude (d other : Dyadic) : Except Fault Ordering :=
  if d.significand = 0 ∨ other.significand = 0 then
    .ok (compare d.significand other.significand)
  else
    let top := (Nat.size d.significand : ℤ) + d.exponent
    let otherTop := (Nat.size other.significand : ℤ) + other.exponent
    match compare top otherTop with
    | .eq =>
      match compare d.exponent other.exponent with
      | .eq => .ok (compare d.significand other.significand)
      | .gt => do
        let aligned ← shifted d.significand (d.exponent - other.exponent).toNat
        .ok (compare aligned other.significand)
      | .lt => do
        let aligned ← shifted other.significand (other.exponent - d.exponent).toNat
        .ok (compare d.significand aligned)
    | ordering => .ok ordering

def cmp (d other : Dyadic) : Except Fault Ordering :=
  match d.negative, other.negative with
  | true, false => .ok .lt
  | false, true => .ok .gt
  | false, false => cmpMagnitude d other
  | true, true => do
    let ordering ← cmpMagnitude d other
    .ok ordering.swap

/-- The rational that a dyadic number denotes. -/
def toRat (d : Dyadic) : ℚ :=
  if d.negative then -scaled d.significand d.exponent else scaled d.significand d.exponent

/-- A number that 128 bits hold; zero has no sign. -/
structure Fits (bits : ℕ) (d : Dyadic) : Prop where
  significand_lt : d.significand < 2 ^ bits
  positive_zero : d.significand = 0 → d.negative = false

variable {d other : Dyadic} {bits : ℕ}

theorem two_pow_trailingZeros_dvd (fuel s : ℕ) : 2 ^ trailingZeros fuel s ∣ s := by
  induction fuel generalizing s with
  | zero => simp [trailingZeros]
  | succ fuel ih =>
    rw [trailingZeros]
    split
    case isTrue h =>
      rw [pow_succ]
      have hhalf : s = s / 2 * 2 := by omega
      conv_rhs => rw [hhalf]
      exact Nat.mul_dvd_mul_right (ih (s / 2)) 2
    case isFalse h => simp

/-- Normalization keeps the number. -/
theorem toRat_normalized (d : Dyadic) : (normalized d).toRat = d.toRat := by
  by_cases hzero : d.significand = 0
  · simp [normalized, toRat, hzero]
  · have hdvd := two_pow_trailingZeros_dvd 128 d.significand
    have hscaled : scaled (d.significand / 2 ^ trailingZeros 128 d.significand)
        (d.exponent + trailingZeros 128 d.significand) = scaled d.significand d.exponent := by
      rw [scaled_add, Nat.div_mul_cancel hdvd]
    simp only [normalized, hzero, if_false, toRat, hscaled]

theorem fits_normalized (h : d.significand < 2 ^ bits) : (normalized d).Fits bits := by
  by_cases hzero : d.significand = 0
  · simp only [normalized, hzero, if_true]
    exact ⟨Nat.two_pow_pos bits, fun _ => rfl⟩
  · have hdvd := two_pow_trailingZeros_dvd 128 d.significand
    simp only [normalized, hzero, if_false]
    refine ⟨(Nat.div_le_self _ _).trans_lt h, fun hdiv => ?_⟩
    have hpos := Nat.div_pos (Nat.le_of_dvd (Nat.pos_of_ne_zero hzero) hdvd)
      (Nat.two_pow_pos _)
    exact absurd hdiv hpos.ne'

/-- The product of numbers of few bits is exact. -/
theorem mul_exact {bits' : ℕ} (h : d.Fits bits) (h' : other.Fits bits')
    (hbits : bits + bits' ≤ 128) :
    ∃ product, mul d other = .ok product ∧ product.Fits (bits + bits') ∧
      product.toRat = d.toRat * other.toRat := by
  have hlt : d.significand * other.significand < 2 ^ (bits + bits') := by
    rw [pow_add]
    exact Nat.mul_lt_mul'' h.significand_lt h'.significand_lt
  refine ⟨_, if_pos (hlt.trans_le (Nat.pow_le_pow_right (by decide) hbits)),
    fits_normalized hlt, ?_⟩
  rw [toRat_normalized]
  cases hd : d.negative <;> cases hother : other.negative <;>
    simp [toRat, hd, hother, ← scaled_mul]

theorem compare_of_zero (hzero : d.significand = 0 ∨ other.significand = 0) :
    compare d.significand other.significand = compare (scaled d.significand d.exponent)
      (scaled other.significand other.exponent) := by
  rcases Nat.eq_zero_or_pos d.significand with hd | hd
  · rcases Nat.eq_zero_or_pos other.significand with hother | hother
    · rw [hd, hother, scaled_zero, scaled_zero]
      rfl
    · rw [hd, scaled_zero, compare_lt_iff_lt.2 hother,
        compare_lt_iff_lt.2 (scaled_pos hother other.exponent)]
  · have hother := hzero.resolve_left hd.ne'
    rw [hother, scaled_zero, compare_gt_iff_gt.2 hd,
      compare_gt_iff_gt.2 (scaled_pos hd d.exponent)]

theorem shifted_eq {significand shift : ℕ} (hpos : 0 < significand)
    (h : significand * 2 ^ shift < 2 ^ bits) (hbits : bits ≤ 128) :
    shifted significand shift = .ok (significand * 2 ^ shift) := by
  have hle : 2 ^ shift ≤ significand * 2 ^ shift := Nat.le_mul_of_pos_left _ hpos
  have hshift : shift < bits := (Nat.pow_lt_pow_iff_right (by decide)).1 (hle.trans_lt h)
  exact if_pos ⟨by omega, h.trans_le (Nat.pow_le_pow_right (by decide) hbits)⟩

/-- Magnitudes compare exactly, without a lost bit. -/
theorem cmpMagnitude_exact (h : d.Fits bits) (h' : other.Fits bits) (hbits : bits ≤ 128) :
    cmpMagnitude d other = .ok (compare (scaled d.significand d.exponent)
      (scaled other.significand other.exponent)) := by
  by_cases hzero : d.significand = 0 ∨ other.significand = 0
  · rw [cmpMagnitude, if_pos hzero, compare_of_zero hzero]
  · rw [cmpMagnitude, if_neg hzero]
    rw [not_or] at hzero
    have hd := Nat.pos_of_ne_zero hzero.1
    have hother := Nat.pos_of_ne_zero hzero.2
    simp only
    rcases lt_trichotomy ((Nat.size d.significand : ℤ) + d.exponent)
      (Nat.size other.significand + other.exponent) with htop | htop | htop
    · rw [compare_lt_iff_lt.2 htop, compare_lt_iff_lt.2 (scaled_lt_of_top hother htop)]
    · rw [compare_eq_iff_eq.2 htop]
      simp only
      have hsize : Nat.size d.significand ≤ bits := Nat.size_le.2 h.significand_lt
      have hsize' : Nat.size other.significand ≤ bits := Nat.size_le.2 h'.significand_lt
      rcases lt_trichotomy d.exponent other.exponent with hexp | hexp | hexp
      · obtain ⟨k, hk⟩ : ∃ k : ℕ, other.exponent = d.exponent + k :=
          ⟨(other.exponent - d.exponent).toNat, by omega⟩
        have haligned := aligned_lt hother htop.symm hk
        have hshift : (other.exponent - d.exponent).toNat = k := by omega
        rw [compare_lt_iff_lt.2 hexp]
        simp only [hshift]
        rw [shifted_eq hother haligned (hsize.trans hbits), hk, scaled_add, compare_scaled]
        rfl
      · rw [compare_eq_iff_eq.2 hexp, hexp, compare_scaled]
      · obtain ⟨k, hk⟩ : ∃ k : ℕ, d.exponent = other.exponent + k :=
          ⟨(d.exponent - other.exponent).toNat, by omega⟩
        have haligned := aligned_lt hd htop hk
        have hshift : (d.exponent - other.exponent).toNat = k := by omega
        rw [compare_gt_iff_gt.2 hexp]
        simp only [hshift]
        rw [shifted_eq hd haligned (hsize'.trans hbits), hk, scaled_add, compare_scaled]
        rfl
    · rw [compare_gt_iff_gt.2 htop, compare_gt_iff_gt.2 (scaled_lt_of_top hd htop)]

/-- Dyadic numbers compare as the rationals they denote. -/
theorem cmp_exact (h : d.Fits bits) (h' : other.Fits bits) (hbits : bits ≤ 128) :
    cmp d other = .ok (compare d.toRat other.toRat) := by
  have hmagnitude := cmpMagnitude_exact h h' hbits
  cases hd : d.negative <;> cases hother : other.negative
  · simp [cmp, hd, hother, toRat, hmagnitude]
  · have hpos : 0 < other.significand := by
      apply Nat.pos_of_ne_zero
      intro hzero
      rw [h'.positive_zero hzero] at hother
      cases hother
    have hlt : -scaled other.significand other.exponent < scaled d.significand d.exponent :=
      (neg_neg_of_pos (scaled_pos hpos _)).trans_le (scaled_nonneg _ _)
    simp [cmp, hd, hother, toRat, compare_gt_iff_gt.2 hlt]
  · have hpos : 0 < d.significand := by
      apply Nat.pos_of_ne_zero
      intro hzero
      rw [h.positive_zero hzero] at hd
      cases hd
    have hlt : -scaled d.significand d.exponent < scaled other.significand other.exponent :=
      (neg_neg_of_pos (scaled_pos hpos _)).trans_le (scaled_nonneg _ _)
    simp [cmp, hd, hother, toRat, compare_lt_iff_lt.2 hlt]
  · simp only [cmp, hd, hother, toRat, if_true, hmagnitude, bind, Except.bind]
    rcases lt_trichotomy (scaled d.significand d.exponent)
      (scaled other.significand other.exponent) with hlt | heq | hgt
    · rw [compare_lt_iff_lt.2 hlt, compare_gt_iff_gt.2 (neg_lt_neg hlt)]
      rfl
    · rw [heq, compare_eq_iff_eq.2 rfl, compare_eq_iff_eq.2 rfl]
      rfl
    · rw [compare_gt_iff_gt.2 hgt, compare_lt_iff_lt.2 (neg_lt_neg hgt)]
      rfl

end Dyadic

/-- The rational that a finite float denotes. -/
def toRat (x : Binary64) : ℚ := x.value * 2 ^ (-1074 : ℤ)

/-- The significand and the exponent of a magnitude. -/
def fields (m : ℕ) : ℕ × ℤ :=
  if m / 2 ^ 52 = 0 then (m % 2 ^ 52, -1074)
  else (2 ^ 52 + m % 2 ^ 52, (m / 2 ^ 52 : ℕ) - 1023 - 52)

theorem scaled_fields (m : ℕ) :
    scaled (fields m).1 (fields m).2 = (Binary64.units m : ℚ) * 2 ^ (-1074 : ℤ) := by
  by_cases hraw : m / 2 ^ 52 = 0
  · have hm : m % 2 ^ 52 = m := by omega
    simp only [fields, hraw, if_true, Binary64.units, hm, scaled]
  · have hexponent : ((m / 2 ^ 52 : ℕ) : ℤ) - 1023 - 52 = -1074 + ((m / 2 ^ 52 - 1 : ℕ) : ℤ) := by
      omega
    simp only [fields, hraw, if_false, Binary64.units]
    rw [hexponent, scaled_add, scaled]

theorem fields_lt (m : ℕ) : (fields m).1 < 2 ^ 53 := by
  unfold fields
  split <;> simp only <;> omega

theorem fromF64_eq {x : Binary64} (hx : x.isFinite) :
    Dyadic.fromF64 x = .ok (Dyadic.normalized
      ⟨x.negative && (fields x.magnitude).1 ≠ 0, (fields x.magnitude).1,
        (fields x.magnitude).2⟩) := by
  have hbits := x.bits.toNat_lt
  have hraw : x.bits.toNat / 2 ^ 52 % 2 ^ 11 = x.magnitude / 2 ^ 52 := by
    unfold Binary64.magnitude
    omega
  have hfraction : x.bits.toNat % 2 ^ 52 = x.magnitude % 2 ^ 52 := by
    unfold Binary64.magnitude
    omega
  have hnegative : decide (x.bits.toNat / 2 ^ 63 ≠ 0) = x.negative := by
    unfold Binary64.negative
    rw [decide_eq_decide]
    omega
  simp only [Dyadic.fromF64, hx, if_true, hraw, hfraction, hnegative]
  by_cases hzero : x.magnitude / 2 ^ 52 = 0
  · simp only [fields, hzero, if_true]
  · simp only [fields, hzero, if_false]

/-- A finite float is read exactly. -/
theorem fromF64_exact {x : Binary64} (hx : x.isFinite) :
    ∃ d, Dyadic.fromF64 x = .ok d ∧ d.Fits 53 ∧ d.toRat = toRat x := by
  refine ⟨_, fromF64_eq hx, Dyadic.fits_normalized (fields_lt x.magnitude), ?_⟩
  rw [Dyadic.toRat_normalized]
  have hscaled := scaled_fields x.magnitude
  by_cases hzero : (fields x.magnitude).1 = 0
  · rw [hzero, scaled_zero] at hscaled
    have hunits : (Binary64.units x.magnitude : ℚ) = 0 := by
      have hpow : (2 : ℚ) ^ (-1074 : ℤ) ≠ 0 := (zpow_pos (by norm_num) _).ne'
      exact (mul_eq_zero.1 hscaled.symm).resolve_right hpow
    have hvalue : x.value = 0 := by
      unfold Binary64.value
      rw [Nat.cast_eq_zero.1 hunits]
      simp
    simp [Dyadic.toRat, toRat, hzero, hvalue]
  · cases hnegative : x.negative with
    | false => simp [Dyadic.toRat, toRat, hscaled, Binary64.value, hnegative]
    | true => simp [Dyadic.toRat, toRat, hscaled, Binary64.value, hnegative, hzero]

/-- The orders of a float and of an exact product of floats, without an overflow. -/
theorem cmp_product {a b q : Binary64} (ha : a.isFinite) (hb : b.isFinite) (hq : q.isFinite) :
    ∃ da db dq product, Dyadic.fromF64 a = .ok da ∧ Dyadic.fromF64 b = .ok db ∧
      Dyadic.fromF64 q = .ok dq ∧ da.mul db = .ok product ∧
        dq.cmp product = .ok (compare (toRat q) (toRat a * toRat b)) ∧
          product.cmp dq = .ok (compare (toRat a * toRat b) (toRat q)) := by
  obtain ⟨da, hda, hfa, hra⟩ := fromF64_exact ha
  obtain ⟨db, hdb, hfb, hrb⟩ := fromF64_exact hb
  obtain ⟨dq, hdq, hfq, hrq⟩ := fromF64_exact hq
  obtain ⟨product, hproduct, hfits, hrat⟩ := Dyadic.mul_exact hfa hfb (by decide)
  refine ⟨da, db, dq, product, hda, hdb, hdq, hproduct, ?_⟩
  rw [← hra, ← hrb, ← hrq, ← hrat]
  have hwide : dq.Fits (53 + 53) :=
    ⟨hfq.significand_lt.trans_le (Nat.pow_le_pow_right (by decide) (by decide)),
      hfq.positive_zero⟩
  exact ⟨Dyadic.cmp_exact hwide hfits (by decide), Dyadic.cmp_exact hfits hwide (by decide)⟩

end FrankenSim.CertKernel
