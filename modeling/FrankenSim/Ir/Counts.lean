import FrankenSim.Library.Decimals

/-!
# Count literals

A count is written as a bare integer or as a decimal with a sign, a point or an exponent.
Both are kept exactly, and converted to bytes with integer arithmetic of bounded width.
-/
namespace FrankenSim.Ir

open Library

/-- Units of memory grants and core counts. -/
inductive CountUnit
  | b
  | kib
  | mib
  | gib
  | cores
  deriving DecidableEq, Repr

/-- The binary logarithm of the byte factor; cores are not bytes. -/
def CountUnit.byteShift : CountUnit → Option ℕ
  | .b => some 0
  | .kib => some 10
  | .mib => some 20
  | .gib => some 30
  | .cores => none

def checked {α : Type} (inRange : α → Prop) [DecidablePred inRange] (a : α) : Option α :=
  if inRange a then some a else none

def checkedU64 (n : ℕ) : Option ℕ := checked (· < 2 ^ 64) n
def checkedU128 (n : ℕ) : Option ℕ := checked (· < 2 ^ 128) n
def checkedI32 (z : ℤ) : Option ℤ := checked (fun z => -2 ^ 31 ≤ z ∧ z < 2 ^ 31) z

/-- A shift to the left in 128 bits that is given back when shifted to the right. -/
def shlExact (value shift : ℕ) : Option ℕ :=
  if shift < 128 then
    if (value <<< shift % 2 ^ 128) >>> shift = value then some (value <<< shift % 2 ^ 128) else none
  else none

/-- The zero bits below the lowest one bit of 128. -/
def trailingZeros (n : ℕ) : ℕ := ((List.range 128).find? fun i => n.testBit i).getD 128

structure DecimalCount where
  negative : Bool
  significand : ℕ
  exponent10 : ℤ
  deriving DecidableEq, Repr

/-- What the digit loop has read. -/
structure DecimalScan where
  significand : ℕ
  fractionalDigits : ℤ
  sawDigit : Bool
  sawDecimal : Bool

/-- The digit loop; it stops in front of the first other character. -/
def scanDigits (s : DecimalScan) : List Char → Option (DecimalScan × List Char)
  | [] => some (s, [])
  | c :: rest =>
    if c.isDigit then do
      let scaled ← checkedU128 (s.significand * 10)
      let significand ← checkedU128 (scaled + (c.toNat - '0'.toNat))
      let fractionalDigits ←
        (if s.sawDecimal then checkedI32 (s.fractionalDigits + 1) else some s.fractionalDigits)
      scanDigits ⟨significand, fractionalDigits, true, s.sawDecimal⟩ rest
    else if c = '.' ∧ ¬ s.sawDecimal then scanDigits { s with sawDecimal := true } rest
    else some (s, c :: rest)

/-- The sign that an exponent may start with. -/
def takeSign : List Char → List Char × List Char
  | c :: rest => if c = '+' ∨ c = '-' then ([c], rest) else ([], c :: rest)
  | [] => ([], [])

/-- The written exponent, whether there is one, and what follows. -/
def scanExponent : List Char → Option (ℤ × Bool × List Char)
  | [] => some (0, false, [])
  | mark :: rest =>
    if mark = 'e' ∨ mark = 'E' then do
      let (sign, digits) := takeSign rest
      guard (digits.takeWhile Char.isDigit ≠ [])
      let written ← signedValue (sign ++ digits.takeWhile Char.isDigit)
      let written ← checkedI32 written
      some (written, true, digits.dropWhile Char.isDigit)
    else some (0, false, mark :: rest)

/-- Trailing zeros go to the exponent. -/
def stripZeros (significand : ℕ) (exponent10 : ℤ) : Option (ℕ × ℤ) :=
  if 0 < significand ∧ significand % 10 = 0 then
    (checkedI32 (exponent10 + 1)).bind fun exponent10 => stripZeros (significand / 10) exponent10
  else some (significand, exponent10)
termination_by significand
decreasing_by omega

/-- One factor of five after the other. -/
def stripFives : ℕ → ℕ → Option ℕ
  | 0, reduced => some reduced
  | n + 1, reduced => if reduced % 5 = 0 then stripFives n (reduced / 5) else none

namespace DecimalCount

def parse (text : List Char) : Option DecimalCount := do
  let (negative, body) := splitSign text
  let (s, rest) ← scanDigits ⟨0, 0, false, false⟩ body
  guard s.sawDigit
  let (writtenExponent, sawExponent, rest) ← scanExponent rest
  guard (rest = [] ∧
    (s.sawDecimal ∨ sawExponent ∨ text.head? = some '+' ∨ text.head? = some '-'))
  let exponent10 ← checkedI32 (writtenExponent - s.fractionalDigits)
  if s.significand = 0 then some ⟨false, 0, 0⟩
  else do
    let (significand, exponent10) ← stripZeros s.significand exponent10
    some ⟨negative, significand, exponent10⟩

/-- A decimal without a fraction in units of `2 ^ shift`. -/
def scaledUp (significand exponent shift : ℕ) : Option ℕ := do
  let power ← checkedU128 (10 ^ exponent)
  let scaled ← checkedU128 (significand * power)
  shlExact scaled shift

/-- A fraction in units of `2 ^ shift`: the denominator is divided out before anything is
multiplied. -/
def dividedDown (significand denominatorPower shift : ℕ) : Option ℕ := do
  guard (denominatorPower ≤ 55)
  let reduced ← stripFives denominatorPower significand
  if shift < denominatorPower then
    if trailingZeros reduced < denominatorPower - shift then none
    else some (reduced >>> (denominatorPower - shift))
  else shlExact reduced (shift - denominatorPower)

/-- The decimal in units of `2 ^ shift` bytes, when that is a number of bytes. -/
def checkedIntegralBytes (d : DecimalCount) (shift : ℕ) : Option ℕ :=
  if d.negative then none
  else
    (if 0 ≤ d.exponent10 then scaledUp d.significand d.exponent10.toNat shift
      else dividedDown d.significand d.exponent10.natAbs shift).bind checkedU64

def value (d : DecimalCount) : ℚ := decimal d.negative d.significand d.exponent10

/-- What parsing guarantees. -/
structure Normal (d : DecimalCount) : Prop where
  normal : NormalDecimal d.negative d.significand d.exponent10
  bounded : d.significand < 2 ^ 128

end DecimalCount

/-- A magnitude in the written unit. -/
inductive CountValue
  | exact (value : ℕ)
  | fractional (decimal : DecimalCount)
  deriving DecidableEq, Repr

namespace CountValue

/-- Exact bytes, or `none` when there is no exact answer. -/
def integralBytes (v : CountValue) (unit : CountUnit) : Option ℕ := do
  let shift ← unit.byteShift
  match v with
  | exact value => (shlExact value shift).bind checkedU64
  | fractional decimal => decimal.checkedIntegralBytes shift

def number : CountValue → ℚ
  | exact value => value
  | fractional decimal => decimal.value

end CountValue

section Words

@[simp] theorem checked_eq_some {α : Type} {inRange : α → Prop} [DecidablePred inRange] {a b : α} :
    checked inRange a = some b ↔ a = b ∧ inRange b := by
  unfold checked
  split
  case isTrue h =>
    constructor
    · rintro ⟨⟩
      exact ⟨rfl, h⟩
    · rintro ⟨rfl, -⟩
      rfl
  case isFalse h =>
    constructor
    · rintro ⟨⟩
    · rintro ⟨rfl, hin⟩
      exact absurd hin h

/-- No bit is lost exactly when the product fits. -/
theorem shlExact_eq_some {value shift n : ℕ} (hshift : shift < 128) :
    shlExact value shift = some n ↔ value * 2 ^ shift = n ∧ n < 2 ^ 128 := by
  have hsplit : (2 : ℕ) ^ 128 = 2 ^ (128 - shift) * 2 ^ shift := by
    rw [← pow_add]
    congr 1
    omega
  rw [shlExact, if_pos hshift, Nat.shiftLeft_eq, Nat.shiftRight_eq_div_pow]
  by_cases hfits : value * 2 ^ shift < 2 ^ 128
  · rw [Nat.mod_eq_of_lt hfits, Nat.mul_div_cancel _ (by positivity), if_pos rfl]
    constructor
    · rintro ⟨⟩
      exact ⟨rfl, hfits⟩
    · rintro ⟨rfl, -⟩
      rfl
  · have hlost : ¬ value * 2 ^ shift % 2 ^ 128 / 2 ^ shift = value := by
      intro heq
      have hmod : value * 2 ^ shift % 2 ^ 128 < 2 ^ 128 := Nat.mod_lt _ (by positivity)
      have hlt : value < 2 ^ (128 - shift) := by
        rw [← heq, Nat.div_lt_iff_lt_mul (by positivity), ← hsplit]
        exact hmod
      apply hfits
      rw [hsplit]
      exact Nat.mul_lt_mul_of_pos_right hlt (by positivity)
    rw [if_neg hlost]
    constructor
    · rintro ⟨⟩
    · rintro ⟨rfl, hlt⟩
      exact absurd hlt hfits

theorem two_pow_dvd {n m : ℕ} : 2 ^ m ∣ n ↔ ∀ i < m, n.testBit i = false := by
  rw [Nat.dvd_iff_mod_eq_zero]
  constructor
  · intro hmod i hi
    have hbit := Nat.testBit_mod_two_pow n m i
    rw [hmod, Nat.zero_testBit] at hbit
    simpa [hi] using hbit.symm
  · intro hbits
    apply Nat.eq_of_testBit_eq
    intro i
    rw [Nat.testBit_mod_two_pow, Nat.zero_testBit]
    by_cases hi : i < m
    · simp [hbits i hi]
    · simp [hi]

theorem le_trailingZeros {n m : ℕ} (hm : m ≤ 128) : m ≤ trailingZeros n ↔ 2 ^ m ∣ n := by
  rw [two_pow_dvd, trailingZeros]
  cases hfind : (List.range 128).find? fun i => n.testBit i with
  | none =>
    rw [List.find?_eq_none] at hfind
    constructor
    · intro _ i hi
      simpa using hfind i (List.mem_range.2 (by omega))
    · intro _
      exact hm
  | some j =>
    obtain ⟨hj, hmem, hbefore⟩ := List.find?_range_eq_some.1 hfind
    rw [Option.getD_some]
    constructor
    · intro hle i hi
      simpa using hbefore i (by omega)
    · intro hbits
      by_contra hlt
      have := hbits j (by omega)
      rw [hj] at this
      cases this

theorem stripFives_eq_some {k n r : ℕ} : stripFives k n = some r ↔ n = r * 5 ^ k := by
  induction k generalizing n with
  | zero => simp [stripFives]
  | succ k ih =>
    have hpow : r * 5 ^ (k + 1) = r * 5 ^ k * 5 := by ring
    rw [stripFives, hpow]
    split
    case isTrue hdvd =>
      rw [ih]
      omega
    case isFalse hndvd =>
      constructor
      · rintro ⟨⟩
      · intro h
        omega

end Words

section Bytes

/-- A byte count in natural numbers: the negative powers of ten go to the other side. -/
theorem value_mul_eq_iff {d : DecimalCount} (hpos : d.negative = false) {shift n : ℕ} :
    d.value * 2 ^ shift = n ↔
      d.significand * 10 ^ d.exponent10.toNat * 2 ^ shift = n * 10 ^ (-d.exponent10).toNat := by
  have hpow : (10 : ℚ) ^ d.exponent10 = 10 ^ d.exponent10.toNat / 10 ^ (-d.exponent10).toNat := by
    rw [← zpow_natCast, ← zpow_natCast, ← zpow_sub₀ (by norm_num)]
    congr 1
    omega
  have hten : (10 : ℚ) ^ (-d.exponent10).toNat ≠ 0 := by positivity
  rw [DecimalCount.value, decimal, hpos, hpow]
  have hfrac : (if false = true then (-1 : ℚ) else 1) * (d.significand *
      (10 ^ d.exponent10.toNat / 10 ^ (-d.exponent10).toNat)) * 2 ^ shift =
      d.significand * 10 ^ d.exponent10.toNat * 2 ^ shift / 10 ^ (-d.exponent10).toNat := by
    simp only [Bool.false_eq_true, if_false]
    ring
  rw [hfrac, div_eq_iff hten]
  exact_mod_cast Iff.rfl

/-- A significand of 128 bits has at most 55 factors of five. -/
theorem power_le_of_dvd {s k : ℕ} (hs : s ≠ 0) (hbounded : s < 2 ^ 128) (hdvd : 5 ^ k ∣ s) :
    k ≤ 55 := by
  by_contra hlt
  have hle : 5 ^ 56 ≤ 5 ^ k := Nat.pow_le_pow_right (by norm_num) (by omega)
  have hmax : (2 : ℕ) ^ 128 < 5 ^ 56 := by norm_num
  have := Nat.le_of_dvd (Nat.pos_of_ne_zero hs) hdvd
  omega

theorem scaledUp_eq_some {s e shift n : ℕ} (hs : s = 0 → e = 0) (hshift : shift < 128) :
    DecimalCount.scaledUp s e shift = some n ↔ s * 10 ^ e * 2 ^ shift = n ∧ n < 2 ^ 128 := by
  simp only [DecimalCount.scaledUp, Option.bind_eq_bind, Option.bind_eq_some_iff, checkedU128,
    checked_eq_some, shlExact_eq_some hshift]
  constructor
  · rintro ⟨_, ⟨rfl, -⟩, _, ⟨rfl, -⟩, rfl, hlt⟩
    exact ⟨rfl, hlt⟩
  · rintro ⟨rfl, hlt⟩
    have hscaled : s * 10 ^ e ≤ s * 10 ^ e * 2 ^ shift := Nat.le_mul_of_pos_right _ (by positivity)
    have hpower : 10 ^ e < 2 ^ 128 := by
      rcases Nat.eq_zero_or_pos s with rfl | hpos
      · rw [hs rfl]
        norm_num
      · have : 10 ^ e ≤ s * 10 ^ e := Nat.le_mul_of_pos_left _ hpos
        omega
    exact ⟨_, ⟨rfl, hpower⟩, _, ⟨rfl, by omega⟩, rfl, hlt⟩

/-- The twos of the denominator after its fives. -/
theorem reduced_eq_iff {r k shift n : ℕ} (hr : r < 2 ^ 128) (hshift : shift < 128) (hk : k ≤ 55) :
    (if shift < k then if trailingZeros r < k - shift then none else some (r >>> (k - shift))
      else shlExact r (shift - k)) = some n ↔ r * 2 ^ shift = n * 2 ^ k ∧ n < 2 ^ 128 := by
  by_cases hlt : shift < k
  · have hsplit : (2 : ℕ) ^ k = 2 ^ (k - shift) * 2 ^ shift := by
      rw [← pow_add]
      congr 1
      omega
    have hcancel : r * 2 ^ shift = n * 2 ^ k ↔ r = n * 2 ^ (k - shift) := by
      rw [hsplit, ← mul_assoc]
      exact Nat.mul_left_inj (by positivity)
    rw [if_pos hlt, hcancel, Nat.shiftRight_eq_div_pow]
    by_cases hdvd : 2 ^ (k - shift) ∣ r
    · have hle := (le_trailingZeros (by omega)).2 hdvd
      rw [if_neg (not_lt.2 hle), Option.some.injEq, Nat.div_eq_iff_eq_mul_left (by positivity) hdvd]
      constructor
      · intro heq
        refine ⟨heq, ?_⟩
        have : n ≤ n * 2 ^ (k - shift) := Nat.le_mul_of_pos_right _ (by positivity)
        omega
      · exact And.left
    · have hle : trailingZeros r < k - shift := by
        by_contra hge
        exact hdvd ((le_trailingZeros (by omega)).1 (not_lt.1 hge))
      rw [if_pos hle]
      constructor
      · rintro ⟨⟩
      · rintro ⟨heq, -⟩
        exact absurd ⟨n, by rw [heq]; ring⟩ hdvd
  · have hsplit : (2 : ℕ) ^ shift = 2 ^ (shift - k) * 2 ^ k := by
      rw [← pow_add]
      congr 1
      omega
    have hcancel : r * 2 ^ shift = n * 2 ^ k ↔ r * 2 ^ (shift - k) = n := by
      rw [hsplit, ← mul_assoc]
      exact Nat.mul_left_inj (by positivity)
    rw [if_neg hlt, hcancel, shlExact_eq_some (by omega)]

theorem dividedDown_eq_some {s k shift n : ℕ} (hs : s ≠ 0) (hbounded : s < 2 ^ 128)
    (hshift : shift < 128) :
    DecimalCount.dividedDown s k shift = some n ↔ s * 2 ^ shift = n * 10 ^ k ∧ n < 2 ^ 128 := by
  have hten : ∀ m : ℕ, m * 10 ^ k = m * 2 ^ k * 5 ^ k := by
    intro m
    have hpow : (10 : ℕ) ^ k = 2 ^ k * 5 ^ k := (mul_pow 2 5 k).symm ▸ rfl
    rw [hpow]
    ring
  have hfives : ∀ m : ℕ, s * 2 ^ shift = m * 10 ^ k → 5 ^ k ∣ s := by
    intro m hm
    have hcoprime : Nat.Coprime (5 ^ k) (2 ^ shift) := Nat.Coprime.pow _ _ (by norm_num)
    apply hcoprime.dvd_of_dvd_mul_right
    rw [hm, hten]
    exact Dvd.intro_left _ rfl
  have hreduced : ∀ r, s = r * 5 ^ k → k ≤ 55 → ((if shift < k then
      if trailingZeros r < k - shift then none else some (r >>> (k - shift))
      else shlExact r (shift - k)) = some n ↔ s * 2 ^ shift = n * 10 ^ k ∧ n < 2 ^ 128) := by
    intro r hr hk
    have hle : r ≤ r * 5 ^ k := Nat.le_mul_of_pos_right _ (by positivity)
    have hcancel : r * 2 ^ shift = n * 2 ^ k ↔ s * 2 ^ shift = n * 10 ^ k := by
      have hswap : r * 5 ^ k * 2 ^ shift = r * 2 ^ shift * 5 ^ k := by ring
      rw [hten, hr, hswap]
      exact (Nat.mul_left_inj (by positivity)).symm
    rw [reduced_eq_iff (by omega) hshift hk, hcancel]
  simp only [DecimalCount.dividedDown, Option.bind_eq_bind, Option.bind_eq_some_iff,
    stripFives_eq_some]
  constructor
  · rintro ⟨_, hk, r, hr, hn⟩
    have hk : k ≤ 55 := by simpa [guard] using hk
    exact (hreduced r hr hk).1 hn
  · rintro ⟨heq, hlt⟩
    obtain ⟨r, hr⟩ := hfives n heq
    have hk := power_le_of_dvd hs hbounded ⟨r, hr⟩
    rw [mul_comm] at hr
    exact ⟨(), by simp [guard, hk], r, hr, (hreduced r hr hk).2 ⟨heq, hlt⟩⟩

theorem checkedIntegralBytes_eq_some {d : DecimalCount} (hd : d.Normal) {shift n : ℕ}
    (hshift : shift ≤ 30) :
    d.checkedIntegralBytes shift = some n ↔ d.value * 2 ^ shift = n ∧ n < 2 ^ 64 := by
  have hrange : n < 2 ^ 64 → n < 2 ^ 128 := fun hlt => hlt.trans (by norm_num)
  cases hneg : d.negative with
  | true =>
    have hs : d.significand ≠ 0 := by
      intro hs
      have := (hd.normal.zero hs).1
      rw [hneg] at this
      cases this
    have hlt : d.value < 0 := decimal_neg_iff.2 ⟨hneg, hs⟩
    rw [DecimalCount.checkedIntegralBytes, hneg, if_pos rfl]
    constructor
    · rintro ⟨⟩
    · rintro ⟨heq, -⟩
      have hprod : d.value * 2 ^ shift < 0 := mul_neg_of_neg_of_pos hlt (by positivity)
      rw [heq] at hprod
      exact absurd hprod (not_lt.2 (Nat.cast_nonneg n))
  | false =>
    rw [value_mul_eq_iff hneg, DecimalCount.checkedIntegralBytes, hneg, if_neg (by simp)]
    simp only [Option.bind_eq_some_iff, checkedU64, checked_eq_some]
    rcases Int.lt_or_le d.exponent10 0 with hexp | hexp
    · have hs : d.significand ≠ 0 := by
        intro hs
        have := (hd.normal.zero hs).2
        omega
      have hto : d.exponent10.toNat = 0 := by omega
      have habs : (-d.exponent10).toNat = d.exponent10.natAbs := by omega
      rw [if_neg (not_le.2 hexp), hto, habs, pow_zero, mul_one]
      constructor
      · rintro ⟨_, hn, rfl, hlt⟩
        exact ⟨((dividedDown_eq_some hs hd.bounded (by omega)).1 hn).1, hlt⟩
      · rintro ⟨heq, hlt⟩
        exact ⟨n, (dividedDown_eq_some hs hd.bounded (by omega)).2 ⟨heq, hrange hlt⟩, rfl, hlt⟩
    · have hto : (-d.exponent10).toNat = 0 := by omega
      have hzero : d.significand = 0 → d.exponent10.toNat = 0 := by
        intro hs
        rw [(hd.normal.zero hs).2]
        rfl
      rw [if_pos hexp, hto, pow_zero, mul_one]
      constructor
      · rintro ⟨_, hn, rfl, hlt⟩
        exact ⟨((scaledUp_eq_some hzero (by omega)).1 hn).1, hlt⟩
      · rintro ⟨heq, hlt⟩
        exact ⟨n, (scaledUp_eq_some hzero (by omega)).2 ⟨heq, hrange hlt⟩, rfl, hlt⟩

theorem integralBytes_eq_some {v : CountValue} (hv : ∀ d, v = .fractional d → d.Normal)
    (unit : CountUnit) (n : ℕ) : v.integralBytes unit = some n ↔
      ∃ shift, unit.byteShift = some shift ∧ v.number * 2 ^ shift = n ∧ n < 2 ^ 64 := by
  have hshift : ∀ shift, unit.byteShift = some shift → shift ≤ 30 := by
    intro shift hs
    cases unit <;> cases hs <;> decide
  simp only [CountValue.integralBytes, Option.bind_eq_bind, Option.bind_eq_some_iff]
  apply exists_congr
  intro shift
  apply and_congr_right
  intro hs
  have hle := hshift shift hs
  cases v with
  | exact value =>
    simp only [Option.bind_eq_some_iff, checkedU64, checked_eq_some, CountValue.number]
    have hcast : ((value : ℚ) * 2 ^ shift = n) ↔ value * 2 ^ shift = n := by exact_mod_cast Iff.rfl
    rw [hcast]
    constructor
    · rintro ⟨_, hn, rfl, hlt⟩
      exact ⟨((shlExact_eq_some (by omega)).1 hn).1, hlt⟩
    · rintro ⟨heq, hlt⟩
      exact ⟨n, (shlExact_eq_some (by omega)).2 ⟨heq, hlt.trans (by norm_num)⟩, rfl, hlt⟩
  | fractional d => exact checkedIntegralBytes_eq_some (hv d rfl) hle

end Bytes

end FrankenSim.Ir
