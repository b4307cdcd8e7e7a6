import Mathlib.Algebra.Order.Field.Power
import Mathlib.Data.Rat.Defs
import Mathlib.Tactic

/-!
# Decimal numbers and their texts

A decimal is a sign, a significand and an exponent of ten. Without trailing zeros in the
significand it is determined by its value. A text of digits, with a sign, a point or an
exponent, denotes one rational number.
-/
namespace FrankenSim.Library

/-- The number of a decimal. -/
def decimal (negative : Bool) (significand : ℕ) (exponent : ℤ) : ℚ :=
  (if negative then -1 else 1) * (significand * 10 ^ exponent)

/-- Zero in one way only, and no trailing zeros. -/
structure NormalDecimal (negative : Bool) (significand : ℕ) (exponent : ℤ) : Prop where
  zero : significand = 0 → negative = false ∧ exponent = 0
  reduced : significand ≠ 0 → ¬ 10 ∣ significand

theorem ten_zpow_ne_zero (e : ℤ) : (10 : ℚ) ^ e ≠ 0 := zpow_ne_zero e (by norm_num)

/-- A smaller exponent leaves the difference to the significand. -/
theorem significand_eq {s t : ℕ} {e f : ℤ} (hle : e ≤ f)
    (h : (s : ℚ) * 10 ^ e = t * 10 ^ f) : s = t * 10 ^ (f - e).toNat := by
  have hsplit : (10 : ℚ) ^ f = 10 ^ (f - e).toNat * 10 ^ e := by
    rw [← zpow_natCast, ← zpow_add₀ (by norm_num)]
    congr 1
    omega
  rw [hsplit, ← mul_assoc] at h
  have hcast := mul_right_cancel₀ (ten_zpow_ne_zero e) h
  exact_mod_cast hcast

theorem significand_injective {s t : ℕ} {e f : ℤ} (hs : ¬ 10 ∣ s) (ht : ¬ 10 ∣ t)
    (h : (s : ℚ) * 10 ^ e = t * 10 ^ f) : s = t ∧ e = f := by
  have hle : ∀ {s t : ℕ} {e f : ℤ}, ¬ 10 ∣ s → e ≤ f → (s : ℚ) * 10 ^ e = t * 10 ^ f →
      s = t ∧ e = f := by
    intro s t e f hs hle h
    have hst := significand_eq hle h
    cases hn : (f - e).toNat with
    | zero =>
      rw [hn, pow_zero, mul_one] at hst
      exact ⟨hst, by omega⟩
    | succ n =>
      rw [hn, pow_succ] at hst
      exact absurd ⟨t * 10 ^ n, by rw [hst]; ring⟩ hs
  rcases le_total e f with hef | hfe
  · exact hle hs hef h
  · obtain ⟨hts, hfe⟩ := hle ht hfe h.symm
    exact ⟨hts.symm, hfe.symm⟩

theorem decimal_eq_zero {negative : Bool} {s : ℕ} {e : ℤ} : decimal negative s e = 0 ↔ s = 0 := by
  cases negative <;> simp [decimal, ten_zpow_ne_zero]

theorem decimal_neg_iff {negative : Bool} {s : ℕ} {e : ℤ} :
    decimal negative s e < 0 ↔ negative = true ∧ s ≠ 0 := by
  have hpos : 0 ≤ (s : ℚ) * 10 ^ e := by positivity
  cases negative with
  | false => simpa [decimal] using hpos
  | true =>
    constructor
    · intro hneg
      refine ⟨rfl, ?_⟩
      rintro rfl
      simp [decimal] at hneg
    · rintro ⟨-, hs⟩
      have hlt : 0 < (s : ℚ) * 10 ^ e := by positivity
      simpa [decimal] using hlt

/-- Normal decimals of one value are equal. -/
theorem decimal_injective {n n' : Bool} {s s' : ℕ} {e e' : ℤ} (h : NormalDecimal n s e)
    (h' : NormalDecimal n' s' e') (heq : decimal n s e = decimal n' s' e') :
    n = n' ∧ s = s' ∧ e = e' := by
  by_cases hs : s = 0
  · have hs' : s' = 0 := by
      rw [← @decimal_eq_zero n' s' e', ← heq, decimal_eq_zero]
      exact hs
    obtain ⟨rfl, rfl⟩ := h.zero hs
    obtain ⟨rfl, rfl⟩ := h'.zero hs'
    exact ⟨rfl, hs.trans hs'.symm, rfl⟩
  · have hs' : s' ≠ 0 := by
      rw [Ne, ← @decimal_eq_zero n' s' e', ← heq, decimal_eq_zero]
      exact hs
    have hsign : n = n' := by
      have hneg := @decimal_neg_iff n s e
      have hneg' := @decimal_neg_iff n' s' e'
      rw [heq, hneg'] at hneg
      simp only [hs, hs', ne_eq, not_false_eq_true, and_true] at hneg
      rw [Bool.eq_iff_iff]
      exact hneg.symm
    subst hsign
    have hmagnitude : (s : ℚ) * 10 ^ e = s' * 10 ^ e' := by
      cases n <;> simpa [decimal] using heq
    obtain ⟨hst, hef⟩ := significand_injective (h.reduced hs) (h'.reduced hs') hmagnitude
    exact ⟨rfl, hst, hef⟩

/-- The number that a list of digits denotes. -/
def digitsValue (digits : List Char) : ℕ :=
  digits.foldl (fun n c => n * 10 + (c.toNat - '0'.toNat)) 0

/-- A sign that may be missing. -/
def splitSign : List Char → Bool × List Char
  | '-' :: rest => (true, rest)
  | '+' :: rest => (false, rest)
  | text => (false, text)

/-- The digits after a point, if there is one. -/
def splitFraction : List Char → List Char × List Char
  | '.' :: rest => (rest.takeWhile Char.isDigit, rest.dropWhile Char.isDigit)
  | text => ([], text)

/-- A number with a sign, nothing else. -/
def signedValue (text : List Char) : Option ℤ :=
  let (negative, digits) := splitSign text
  if digits ≠ [] ∧ digits.all Char.isDigit then
    some (if negative then -digitsValue digits else digitsValue digits)
  else none

/-- The exponent of a text, zero when there is none. -/
def exponentValue : List Char → Option ℤ
  | [] => some 0
  | mark :: rest => if mark = 'e' ∨ mark = 'E' then signedValue rest else none

/-- The number that a decimal text denotes. -/
def writtenValue (text : List Char) : Option ℚ :=
  let (negative, body) := splitSign text
  let whole := body.takeWhile Char.isDigit
  let (fraction, rest) := splitFraction (body.dropWhile Char.isDigit)
  if whole ++ fraction = [] then none
  else (exponentValue rest).map fun e =>
    decimal negative (digitsValue (whole ++ fraction)) (e - fraction.length)

end FrankenSim.Library
