import FrankenSim.Library.ExactFloat
import Mathlib.Algebra.Order.Ring.Nat
import Mathlib.Data.Int.Order.Lemmas
import Mathlib.Tactic.Linarith
import Mathlib.Tactic.Ring

/-!
# Floating-point numbers of sixty-four bits

A float is its bit pattern. The order of the numbers is the order of a signed key, and
every finite number is a whole number of units, the smallest subnormal. An operation
computes in units and rounds to the nearest pattern, ties to even.
-/
namespace FrankenSim.Library

structure Binary64 where
  bits : UInt64
  deriving DecidableEq

namespace Binary64

/-- The pattern without its sign. -/
def magnitude (x : Binary64) : ℕ := x.bits.toNat % 2 ^ 63

def negative (x : Binary64) : Bool := decide (2 ^ 63 ≤ x.bits.toNat)

/-- The magnitude of the infinities; larger ones are NaN. -/
def infinite : ℕ := 2047 * 2 ^ 52

def ofMagnitude (negative : Bool) (m : ℕ) : Binary64 :=
  ⟨UInt64.ofNat ((if negative then 2 ^ 63 else 0) + m)⟩

def infinity : Binary64 := ofMagnitude false infinite

def negInfinity : Binary64 := ofMagnitude true infinite

def nan : Binary64 := ofMagnitude false (infinite + 2 ^ 51)

def zero : Binary64 := ofMagnitude false 0

def half : Binary64 := ofMagnitude false (1022 * 2 ^ 52)

def one : Binary64 := ofMagnitude false (1023 * 2 ^ 52)

def two : Binary64 := ofMagnitude false (1024 * 2 ^ 52)

/-- The smallest normal number. -/
def minPositive : Binary64 := ofMagnitude false (2 ^ 52)

def isNan (x : Binary64) : Bool := decide (infinite < x.magnitude)

def isInfinite (x : Binary64) : Bool := decide (x.magnitude = infinite)

def isFinite (x : Binary64) : Bool := decide (x.magnitude < infinite)

/-- The place of a number in the order; both zeros share one. -/
def key (x : Binary64) : ℤ := if x.negative then -(x.magnitude : ℤ) else x.magnitude

def lt (x y : Binary64) : Bool := !x.isNan && !y.isNan && decide (x.key < y.key)

def le (x y : Binary64) : Bool := !x.isNan && !y.isNan && decide (x.key ≤ y.key)

/-- The units of a finite magnitude. -/
def units (m : ℕ) : ℕ :=
  if m / 2 ^ 52 = 0 then m else (2 ^ 52 + m % 2 ^ 52) * 2 ^ (m / 2 ^ 52 - 1)

/-- The signed units of a finite number. -/
def value (x : Binary64) : ℤ :=
  if x.negative then -(units x.magnitude : ℤ) else units x.magnitude

/-- How far a quotient is shifted to leave fifty-three bits. -/
def shift (n d : ℕ) : ℕ := Nat.log2 (n / d) - 52

/-- The shifted quotient, with no more than fifty-three bits. -/
def significand (n d : ℕ) : ℕ := n / (d * 2 ^ shift n d)

/-- The remainder calls for the next significand: nearest, ties to even. -/
def roundsUp (n d : ℕ) : Bool :=
  decide (d * 2 ^ shift n d < 2 * (n % (d * 2 ^ shift n d)) ∨
    2 * (n % (d * 2 ^ shift n d)) = d * 2 ^ shift n d ∧ significand n d % 2 = 1)

/-- The largest magnitude that a quotient of units reaches. -/
def floorMagnitude (n d : ℕ) : ℕ := shift n d * 2 ^ 52 + significand n d

/-- The magnitude nearest to a quotient of units. -/
def round (n d : ℕ) : ℕ :=
  Nat.min (floorMagnitude n d + if roundsUp n d then 1 else 0) infinite

def neg (x : Binary64) : Binary64 := ofMagnitude (!x.negative) x.magnitude

def abs (x : Binary64) : Binary64 := ofMagnitude false x.magnitude

/-- The rounded sum of two finite numbers. -/
def addFinite (x y : Binary64) : Binary64 :=
  let total := x.value + y.value
  if total = 0 then ofMagnitude (x.negative && y.negative) 0
  else ofMagnitude (decide (total < 0)) (round total.natAbs 1)

def add (x y : Binary64) : Binary64 :=
  if x.isNan || y.isNan then nan
  else if x.isInfinite then
    if y.isInfinite && x.negative != y.negative then nan else x
  else if y.isInfinite then y
  else addFinite x y

def sub (x y : Binary64) : Binary64 := add x y.neg

def mul (x y : Binary64) : Binary64 :=
  if x.isNan || y.isNan then nan
  else if x.isInfinite || y.isInfinite then
    if x.magnitude = 0 ∨ y.magnitude = 0 then nan
    else ofMagnitude (x.negative != y.negative) infinite
  else ofMagnitude (x.negative != y.negative)
    (round (units x.magnitude * units y.magnitude) (2 ^ 1074))

def div (x y : Binary64) : Binary64 :=
  if x.isNan || y.isNan then nan
  else if x.isInfinite then
    if y.isInfinite then nan else ofMagnitude (x.negative != y.negative) infinite
  else if y.isInfinite then ofMagnitude (x.negative != y.negative) 0
  else if y.magnitude = 0 then
    if x.magnitude = 0 then nan else ofMagnitude (x.negative != y.negative) infinite
  else ofMagnitude (x.negative != y.negative)
    (round (units x.magnitude * 2 ^ 1074) (units y.magnitude))

/-- The smaller number; a NaN yields the other one. -/
def min (x y : Binary64) : Binary64 :=
  if x.isNan then y else if y.isNan then x else if lt y x then y else x

def max (x y : Binary64) : Binary64 :=
  if x.isNan then y else if y.isNan then x else if lt x y then y else x

/-- The next larger number. -/
def nextUp (x : Binary64) : Binary64 :=
  if x.isNan || x == infinity then x
  else if x.magnitude = 0 then ofMagnitude false 1
  else if x.negative then ofMagnitude true (x.magnitude - 1)
  else ofMagnitude false (x.magnitude + 1)

/-- The next smaller number. -/
def nextDown (x : Binary64) : Binary64 :=
  if x.isNan || x == negInfinity then x
  else if x.magnitude = 0 then ofMagnitude true 1
  else if x.negative then ofMagnitude true (x.magnitude + 1)
  else ofMagnitude false (x.magnitude - 1)

section Rounding

variable {n n' d m : ℕ}

theorem units_pack {s g : ℕ} (hg : g < 2 ^ 53) (hs : s = 0 ∨ 2 ^ 52 ≤ g) :
    units (s * 2 ^ 52 + g) = g * 2 ^ s := by
  unfold units
  rcases Nat.lt_or_ge g (2 ^ 52) with h | h
  · have hzero : s = 0 := by omega
    subst hzero
    rw [if_pos (by omega)]
    simp
  · have hdiv : (s * 2 ^ 52 + g) / 2 ^ 52 = s + 1 := by omega
    have hmod : 2 ^ 52 + (s * 2 ^ 52 + g) % 2 ^ 52 = g := by omega
    rw [if_neg (by omega), hdiv, hmod, Nat.add_sub_cancel]

theorem units_pack_succ {s g : ℕ} (hg : g < 2 ^ 53) (hs : s = 0 ∨ 2 ^ 52 ≤ g) :
    units (s * 2 ^ 52 + g + 1) = (g + 1) * 2 ^ s := by
  rcases Nat.lt_or_ge (g + 1) (2 ^ 53) with h | h
  · have hpack := units_pack (s := s) h (by omega)
    rwa [← Nat.add_assoc] at hpack
  · -- the significand overflows into the exponent
    have hcarry : g + 1 = 2 * 2 ^ 52 := by omega
    have hnext : s * 2 ^ 52 + g + 1 = (s + 1) * 2 ^ 52 + 2 ^ 52 := by omega
    rw [hnext, units_pack (by omega) (.inr le_rfl), hcarry, Nat.pow_succ]
    ring

theorem exists_pack (m : ℕ) :
    ∃ s g, m = s * 2 ^ 52 + g ∧ g < 2 ^ 53 ∧ (s = 0 ∨ 2 ^ 52 ≤ g) := by
  rcases Nat.lt_or_ge m (2 ^ 52) with h | h
  · exact ⟨0, m, by omega, by omega, .inl rfl⟩
  · exact ⟨m / 2 ^ 52 - 1, 2 ^ 52 + m % 2 ^ 52, by omega, by omega, .inr (by omega)⟩

theorem units_lt_succ (m : ℕ) : units m < units (m + 1) := by
  obtain ⟨s, g, rfl, hg, hs⟩ := exists_pack m
  rw [units_pack hg hs, units_pack_succ hg hs]
  exact Nat.mul_lt_mul_of_pos_right (Nat.lt_succ_self g) (Nat.two_pow_pos s)

theorem units_strictMono : StrictMono units := strictMono_nat_of_lt_succ units_lt_succ

@[simp]
theorem units_zero : units 0 = 0 := rfl

theorem significand_eq (n d : ℕ) : significand n d = n / d / 2 ^ shift n d := by
  rw [significand, Nat.div_div_eq_div_mul]

/-- The shift leaves fifty-three bits, fewer only when nothing is shifted. -/
theorem significand_bounds (n d : ℕ) :
    significand n d < 2 ^ 53 ∧ (shift n d = 0 ∨ 2 ^ 52 ≤ significand n d) := by
  rw [significand_eq]
  unfold shift
  generalize n / d = q
  rcases Nat.lt_or_ge q (2 ^ 53) with h | h
  · have hlog : q.log2 ≤ 52 := by
      rcases Nat.eq_zero_or_pos q with rfl | hq
      · decide
      · have hlt := (Nat.log2_lt (by omega)).2 h
        omega
    have hzero : q.log2 - 52 = 0 := by omega
    rw [hzero]
    exact ⟨by simpa using h, .inl rfl⟩
  · have hlow : 2 ^ q.log2 ≤ q := Nat.log2_self_le (by omega)
    have hhigh : q < 2 ^ (q.log2 + 1) := Nat.lt_log2_self
    have hlog : 53 ≤ q.log2 := (Nat.le_log2 (by omega)).2 h
    have hsplit : q.log2 = 52 + (q.log2 - 52) := by omega
    constructor
    · apply (Nat.div_lt_iff_lt_mul (Nat.two_pow_pos _)).2
      rw [← Nat.pow_add]
      have hexp : 53 + (q.log2 - 52) = q.log2 + 1 := by omega
      rwa [hexp]
    · right
      apply (Nat.le_div_iff_mul_le (Nat.two_pow_pos _)).2
      rwa [← Nat.pow_add, ← hsplit]

theorem units_floorMagnitude (n d : ℕ) :
    units (floorMagnitude n d) = significand n d * 2 ^ shift n d :=
  units_pack (significand_bounds n d).1 (significand_bounds n d).2

theorem units_floorMagnitude_succ (n d : ℕ) :
    units (floorMagnitude n d + 1) = (significand n d + 1) * 2 ^ shift n d :=
  units_pack_succ (significand_bounds n d).1 (significand_bounds n d).2

theorem units_floorMagnitude_le (n d : ℕ) : units (floorMagnitude n d) * d ≤ n := by
  have h := Nat.div_mul_le_self n (d * 2 ^ shift n d)
  rw [units_floorMagnitude]
  calc significand n d * 2 ^ shift n d * d = n / (d * 2 ^ shift n d) * (d * 2 ^ shift n d) := by
        rw [significand]
        ring
    _ ≤ n := h

theorem lt_units_floorMagnitude_succ (n : ℕ) (hd : 0 < d) :
    n < units (floorMagnitude n d + 1) * d := by
  have h := Nat.lt_div_mul_add (a := n) (b := d * 2 ^ shift n d) (by positivity)
  rw [units_floorMagnitude_succ, significand]
  calc n < n / (d * 2 ^ shift n d) * (d * 2 ^ shift n d) + d * 2 ^ shift n d := h
    _ = (n / (d * 2 ^ shift n d) + 1) * 2 ^ shift n d * d := by ring

theorem le_floorMagnitude (hd : 0 < d) (h : units m * d ≤ n) : m ≤ floorMagnitude n d := by
  by_contra hlt
  have hmono : units (floorMagnitude n d + 1) ≤ units m :=
    units_strictMono.monotone (by omega)
  have hmul := Nat.mul_le_mul_right d hmono
  have hbound := lt_units_floorMagnitude_succ n hd
  omega

theorem floorMagnitude_mono (hd : 0 < d) (h : n ≤ n') : floorMagnitude n d ≤ floorMagnitude n' d :=
  le_floorMagnitude hd ((units_floorMagnitude_le n d).trans h)

/-- A quotient rounds up from the middle of two neighbours, on a tie to the even one. -/
theorem roundsUp_iff (n d : ℕ) :
    roundsUp n d ↔
      (units (floorMagnitude n d) + units (floorMagnitude n d + 1)) * d < 2 * n ∨
        (units (floorMagnitude n d) + units (floorMagnitude n d + 1)) * d = 2 * n ∧
          floorMagnitude n d % 2 = 1 := by
  have hmod := Nat.div_add_mod n (d * 2 ^ shift n d)
  have hmiddle : (units (floorMagnitude n d) + units (floorMagnitude n d + 1)) * d =
      2 * (d * 2 ^ shift n d * significand n d) + d * 2 ^ shift n d := by
    rw [units_floorMagnitude, units_floorMagnitude_succ]
    ring
  have hparity : floorMagnitude n d % 2 = significand n d % 2 := by
    unfold floorMagnitude
    omega
  rw [hmiddle, hparity, roundsUp, decide_eq_true_iff]
  unfold significand
  omega

theorem round_le_infinite (n d : ℕ) : round n d ≤ infinite := Nat.min_le_right _ _

theorem le_round (hd : 0 < d) (hm : m ≤ infinite) (h : units m * d ≤ n) : m ≤ round n d := by
  have hfloor := le_floorMagnitude hd h
  exact Nat.le_min.2 ⟨by omega, hm⟩

theorem round_mono (hd : 0 < d) (h : n ≤ n') : round n d ≤ round n' d := by
  have hfloor := floorMagnitude_mono hd h
  have hstep : (if roundsUp n d then 1 else 0) ≤ 1 := by split <;> omega
  suffices hsum : floorMagnitude n d + (if roundsUp n d then 1 else 0) ≤
      floorMagnitude n' d + (if roundsUp n' d then 1 else 0) by
    exact Nat.le_min.2 ⟨(Nat.min_le_left _ _).trans hsum, Nat.min_le_right _ _⟩
  rcases hfloor.lt_or_eq with hlt | heq
  · omega
  · -- on one floor the larger quotient rounds up as soon as the smaller one does
    have hup : roundsUp n d → roundsUp n' d := by
      rw [roundsUp_iff, roundsUp_iff, ← heq]
      omega
    by_cases hn : roundsUp n d
    · rw [if_pos hn, if_pos (hup hn), heq]
    · rw [if_neg hn, heq]
      omega

@[simp]
theorem round_zero (d : ℕ) : round 0 d = 0 := by
  simp [round, roundsUp, floorMagnitude, shift, significand]

end Rounding

section Order

variable {x y x' y' : Binary64} {sign : Bool} {m : ℕ}

theorem magnitude_lt (x : Binary64) : x.magnitude < 2 ^ 63 := Nat.mod_lt _ (by decide)

theorem magnitude_ofMagnitude (sign : Bool) (hm : m < 2 ^ 63) :
    (ofMagnitude sign m).magnitude = m := by
  unfold magnitude ofMagnitude
  cases sign <;> simp only [UInt64.toNat_ofNat'] <;> simp <;> omega

theorem negative_ofMagnitude (sign : Bool) (hm : m < 2 ^ 63) :
    (ofMagnitude sign m).negative = sign := by
  unfold negative ofMagnitude
  cases sign <;> simp only [UInt64.toNat_ofNat'] <;> simp <;> omega

theorem infinite_lt : infinite < 2 ^ 63 := by decide

theorem key_ofMagnitude (sign : Bool) (hm : m < 2 ^ 63) :
    (ofMagnitude sign m).key = if sign then -(m : ℤ) else m := by
  rw [key, magnitude_ofMagnitude sign hm, negative_ofMagnitude sign hm]

theorem eq_of_parts (hnegative : x.negative = y.negative) (hmagnitude : x.magnitude = y.magnitude) :
    x = y := by
  have hx := x.bits.toNat_lt
  have hy := y.bits.toNat_lt
  unfold negative at hnegative
  unfold magnitude at hmagnitude
  have hbits : x.bits.toNat = y.bits.toNat := by
    by_cases h : 2 ^ 63 ≤ x.bits.toNat <;> simp at hnegative <;> omega
  cases x
  cases y
  exact congrArg _ (UInt64.toNat_inj.1 hbits)

theorem isNan_eq_false : x.isNan = false ↔ x.magnitude ≤ infinite := by
  simp [isNan]

theorem isNan_ofMagnitude (sign : Bool) (hm : m ≤ infinite) :
    (ofMagnitude sign m).isNan = false := by
  rw [isNan_eq_false, magnitude_ofMagnitude sign (hm.trans_lt infinite_lt)]
  exact hm

theorem isInfinite_iff : x.isInfinite ↔ x.magnitude = infinite := by simp [isInfinite]

theorem isFinite_iff : x.isFinite ↔ x.magnitude < infinite := by simp [isFinite]

theorem isNan_of_isFinite (h : x.isFinite) : x.isNan = false :=
  isNan_eq_false.2 (isFinite_iff.1 h).le

theorem natAbs_key (x : Binary64) : x.key.natAbs = x.magnitude := by
  unfold key
  split <;> simp

theorem key_bounds (h : x.isNan = false) : -(infinite : ℤ) ≤ x.key ∧ x.key ≤ infinite := by
  have hm := isNan_eq_false.1 h
  unfold key
  split <;> omega

theorem isFinite_of_key (hlow : -(infinite : ℤ) < x.key) (hhigh : x.key < infinite) :
    x.isFinite := by
  have habs := natAbs_key x
  rw [isFinite_iff]
  omega

theorem key_bounds_of_isFinite (h : x.isFinite) : -(infinite : ℤ) < x.key ∧ x.key < infinite := by
  have hm := isFinite_iff.1 h
  have habs := natAbs_key x
  omega

theorem lt_iff (hx : x.isNan = false) (hy : y.isNan = false) : lt x y ↔ x.key < y.key := by
  simp [lt, hx, hy]

theorem lt_eq_false (hx : x.isNan = false) (hy : y.isNan = false) :
    lt x y = false ↔ y.key ≤ x.key := by
  simp [lt, hx, hy]

theorem le_iff (hx : x.isNan = false) (hy : y.isNan = false) : le x y ↔ x.key ≤ y.key := by
  simp [le, hx, hy]

theorem isNan_of_le (h : le x y) : x.isNan = false ∧ y.isNan = false := by
  simp only [le, Bool.and_eq_true, Bool.not_eq_true'] at h
  exact h.1

/-- The order of two infinities of one sign leaves one pattern. -/
theorem eq_of_key_eq (hx : x.key ≠ 0) (h : x.key = y.key) : x = y := by
  unfold key at h hx
  apply eq_of_parts
  all_goals
    cases hxs : x.negative <;> cases hys : y.negative <;> simp [hxs, hys] at h hx ⊢ <;> omega

end Order

section Sums

variable {x y x' y' : Binary64}

theorem value_mono (h : x.key ≤ y.key) : x.value ≤ y.value := by
  have hmono := units_strictMono.monotone
  unfold key at h
  unfold value
  cases hx : x.negative <;> cases hy : y.negative <;>
    simp only [hx, hy, if_true, Bool.false_eq_true, if_false] at h ⊢
  · have := hmono (by omega : x.magnitude ≤ y.magnitude)
    omega
  · have hzero : x.magnitude = 0 ∧ y.magnitude = 0 := by omega
    simp [hzero.1, hzero.2]
  · omega
  · have := hmono (by omega : y.magnitude ≤ x.magnitude)
    omega

theorem value_lt_value (h : x.key < y.key) : x.value < y.value := by
  unfold key at h
  unfold value
  cases hx : x.negative <;> cases hy : y.negative <;>
    simp only [hx, hy, if_true, Bool.false_eq_true, if_false] at h ⊢
  · have := units_strictMono (by omega : x.magnitude < y.magnitude)
    omega
  · omega
  · have hpos : 0 < x.magnitude ∨ 0 < y.magnitude := by omega
    obtain hpos | hpos := hpos
    · have := units_strictMono hpos
      rw [units_zero] at this
      omega
    · have := units_strictMono hpos
      rw [units_zero] at this
      omega
  · have := units_strictMono (by omega : y.magnitude < x.magnitude)
    omega

theorem value_eq_of_nonneg (h : 0 ≤ x.key) : x.value = units x.magnitude := by
  unfold key at h
  unfold value
  split at h
  · have hzero : x.magnitude = 0 := by omega
    simp [hzero]
  · rename_i hpos
    rw [if_neg hpos]

/-- The key nearest to a signed number of units. -/
def roundedKey (t : ℤ) : ℤ := if t < 0 then -(round t.natAbs 1 : ℤ) else round t.natAbs 1

theorem roundedKey_mono {t t' : ℤ} (h : t ≤ t') : roundedKey t ≤ roundedKey t' := by
  unfold roundedKey
  split_ifs with ht ht'
  · have := round_mono (by decide : 0 < 1) (by omega : t'.natAbs ≤ t.natAbs)
    omega
  · omega
  · omega
  · have := round_mono (by decide : 0 < 1) (by omega : t.natAbs ≤ t'.natAbs)
    omega

theorem round_lt (n d : ℕ) : round n d < 2 ^ 63 := (round_le_infinite n d).trans_lt infinite_lt

theorem key_addFinite (x y : Binary64) : (addFinite x y).key = roundedKey (x.value + y.value) := by
  unfold addFinite roundedKey
  generalize x.value + y.value = t
  by_cases hzero : t = 0
  · subst hzero
    simp [key_ofMagnitude]
  · simp only [if_neg hzero]
    rw [key_ofMagnitude _ (round_lt _ _)]
    simp

theorem isNan_addFinite (x y : Binary64) : (addFinite x y).isNan = false := by
  unfold addFinite
  dsimp only
  split_ifs
  · exact isNan_ofMagnitude _ (Nat.zero_le _)
  · exact isNan_ofMagnitude _ (round_le_infinite _ _)

theorem isNan_nan : nan.isNan = true := by decide

theorem isNan_of_add (h : (add x y).isNan = false) : x.isNan = false ∧ y.isNan = false := by
  unfold add at h
  cases hx : x.isNan <;> cases hy : y.isNan <;> simp_all [isNan_nan]

theorem add_of_finite (hx : x.isFinite) (hy : y.isFinite) : add x y = addFinite x y := by
  have hxi : x.isInfinite = false := by
    simpa [isInfinite] using (isFinite_iff.1 hx).ne
  have hyi : y.isInfinite = false := by
    simpa [isInfinite] using (isFinite_iff.1 hy).ne
  simp [add, isNan_of_isFinite hx, isNan_of_isFinite hy, hxi, hyi]

/-- A sum with an infinite operand is that operand. -/
theorem key_add_of_infinite_left (hx : x.isInfinite) (h : (add x y).isNan = false) :
    (add x y).key = x.key := by
  obtain ⟨hxn, hyn⟩ := isNan_of_add h
  unfold add at h ⊢
  simp only [hxn, hyn, Bool.or_self, Bool.false_eq_true, if_false, hx, if_true] at h ⊢
  split_ifs at h ⊢ with hclash
  · simp [isNan_nan] at h
  · rfl

theorem key_add_of_infinite_right (hy : y.isInfinite) (h : (add x y).isNan = false) :
    (add x y).key = y.key := by
  obtain ⟨hxn, hyn⟩ := isNan_of_add h
  by_cases hx : x.isInfinite
  · rw [key_add_of_infinite_left hx h]
    have hsign : x.negative = y.negative := by
      by_contra hne
      simp [add, hxn, hyn, hx, hy, hne, isNan_nan] at h
    rw [isInfinite_iff] at hx hy
    rw [key, key, hsign, hx, hy]
  · simp [add, hxn, hyn, hx, hy]

theorem isInfinite_of_key (h : x.key = infinite ∨ x.key = -(infinite : ℤ)) : x.isInfinite := by
  have habs := natAbs_key x
  rw [isInfinite_iff]
  omega

/-- Sums that are numbers keep the order of their operands. -/
theorem key_add_mono (hx : x.key ≤ x'.key) (hy : y.key ≤ y'.key) (h : (add x y).isNan = false)
    (h' : (add x' y').isNan = false) : (add x y).key ≤ (add x' y').key := by
  obtain ⟨hxn, hyn⟩ := isNan_of_add h
  obtain ⟨hxn', hyn'⟩ := isNan_of_add h'
  have hlow := (key_bounds h').1
  have hhigh := (key_bounds h).2
  have hboundx := key_bounds hxn
  have hboundy := key_bounds hyn
  have hboundx' := key_bounds hxn'
  have hboundy' := key_bounds hyn'
  by_cases hbottom : x.key = -(infinite : ℤ)
  · rw [key_add_of_infinite_left (isInfinite_of_key (.inr hbottom)) h, hbottom]
    exact hlow
  by_cases hbottom' : y.key = -(infinite : ℤ)
  · rw [key_add_of_infinite_right (isInfinite_of_key (.inr hbottom')) h, hbottom']
    exact hlow
  by_cases htop : x'.key = infinite
  · rw [key_add_of_infinite_left (isInfinite_of_key (.inl htop)) h', htop]
    exact hhigh
  by_cases htop' : y'.key = infinite
  · rw [key_add_of_infinite_right (isInfinite_of_key (.inl htop')) h', htop']
    exact hhigh
  rw [add_of_finite (isFinite_of_key (by omega) (by omega))
      (isFinite_of_key (by omega) (by omega)),
    add_of_finite (isFinite_of_key (by omega) (by omega)) (isFinite_of_key (by omega) (by omega)),
    key_addFinite, key_addFinite]
  apply roundedKey_mono
  have hvx := value_mono hx
  have hvy := value_mono hy
  omega

theorem negative_eq_false_of_key (h : 0 < x.key) : x.negative = false := by
  unfold key at h
  split at h
  · omega
  · simp_all

theorem isNan_add_of_nonneg (hx : x.isNan = false) (hy : y.isNan = false) (hxk : 0 ≤ x.key)
    (hyk : 0 ≤ y.key) : (add x y).isNan = false := by
  have htop : 0 < infinite := by decide
  have hsign {z : Binary64} (hz : 0 ≤ z.key) (hinf : z.isInfinite) : z.negative = false := by
    have habs := natAbs_key z
    rw [isInfinite_iff] at hinf
    exact negative_eq_false_of_key (by omega)
  unfold add
  simp only [hx, hy, Bool.or_self, Bool.false_eq_true, if_false]
  split_ifs with hxi hclash hyi
  · simp [hsign hxk hxi, hsign hyk (by simp_all)] at hclash
  · exact hx
  · exact hy
  · exact isNan_addFinite x y

theorem key_addFinite_nonneg (hx : x.isFinite) (hxk : 0 ≤ x.key) (hyk : 0 ≤ y.key) :
    x.key ≤ (addFinite x y).key := by
  have habs := natAbs_key x
  have hvalue := value_eq_of_nonneg hxk
  have hvalue' := value_eq_of_nonneg hyk
  rw [key_addFinite, roundedKey, if_neg (by omega)]
  have hround : x.magnitude ≤ round (x.value + y.value).natAbs 1 :=
    le_round (by decide) (isFinite_iff.1 hx).le (by omega)
  omega

/-- Sums of numbers that are not negative do not lose either of them. -/
theorem le_key_add (hx : x.isNan = false) (hy : y.isNan = false) (hxk : 0 ≤ x.key)
    (hyk : 0 ≤ y.key) : x.key ≤ (add x y).key ∧ y.key ≤ (add x y).key := by
  have hnan := isNan_add_of_nonneg hx hy hxk hyk
  have hboundx := key_bounds hx
  have hboundy := key_bounds hy
  by_cases htop : x.key = infinite
  · rw [key_add_of_infinite_left (isInfinite_of_key (.inl htop)) hnan]
    omega
  by_cases htop' : y.key = infinite
  · rw [key_add_of_infinite_right (isInfinite_of_key (.inl htop')) hnan]
    omega
  have hpos : 0 < infinite := by decide
  have hxf := isFinite_of_key (x := x) (by omega) (by omega)
  have hyf := isFinite_of_key (x := y) (by omega) (by omega)
  have hswap : addFinite x y = addFinite y x := by
    unfold addFinite
    rw [Int.add_comm, Bool.and_comm]
  rw [add_of_finite hxf hyf]
  constructor
  · exact key_addFinite_nonneg hxf hxk hyk
  · rw [hswap]
    exact key_addFinite_nonneg hyf hyk hxk

end Sums

section Neighbours

variable {x y : Binary64}

theorem magnitude_lt_infinite_of_ne (hx : x.isNan = false) (hne : x ≠ ofMagnitude sign infinite)
    (hsign : x.negative = sign) : x.magnitude < infinite := by
  have hle := isNan_eq_false.1 hx
  apply lt_of_le_of_ne hle
  intro h
  apply hne
  apply eq_of_parts
  · rw [hsign, negative_ofMagnitude _ infinite_lt]
  · rw [h, magnitude_ofMagnitude _ infinite_lt]

/-- The next larger number is larger, and never negative infinity. -/
theorem nextUp_spec (hx : x.isNan = false) :
    x.nextUp.isNan = false ∧ x.key ≤ x.nextUp.key ∧ -(infinite : ℤ) < x.nextUp.key := by
  have hle := isNan_eq_false.1 hx
  have htop : infinite = 2047 * 2 ^ 52 := rfl
  unfold nextUp
  simp only [hx, Bool.false_or, beq_iff_eq]
  split_ifs with hinf hzero hneg
  · subst hinf
    decide
  · rw [key_ofMagnitude _ (by decide), key]
    refine ⟨isNan_ofMagnitude _ (by decide), ?_, ?_⟩ <;> simp <;> omega
  · rw [key_ofMagnitude _ (by omega), key, if_pos hneg]
    refine ⟨isNan_ofMagnitude _ (by omega), ?_, ?_⟩
    · simp
    · simp
      omega
  · have hlt := magnitude_lt_infinite_of_ne hx hinf (by simpa using hneg)
    rw [key_ofMagnitude _ (by omega), key, if_neg hneg]
    refine ⟨isNan_ofMagnitude _ (by omega), ?_, ?_⟩ <;> simp

theorem nextDown_spec (hx : x.isNan = false) :
    x.nextDown.isNan = false ∧ x.nextDown.key ≤ x.key ∧ x.nextDown.key < infinite := by
  have hle := isNan_eq_false.1 hx
  have htop : infinite = 2047 * 2 ^ 52 := rfl
  unfold nextDown
  simp only [hx, Bool.false_or, beq_iff_eq]
  split_ifs with hinf hzero hneg
  · subst hinf
    decide
  · rw [key_ofMagnitude _ (by decide), key]
    refine ⟨isNan_ofMagnitude _ (by decide), ?_, ?_⟩ <;> simp <;> omega
  · have hlt := magnitude_lt_infinite_of_ne hx hinf (by simpa using hneg)
    rw [key_ofMagnitude _ (by omega), key, if_pos hneg]
    refine ⟨isNan_ofMagnitude _ (by omega), ?_, ?_⟩
    · simp
    · simp
      omega
  · rw [key_ofMagnitude _ (by omega), key, if_neg hneg]
    refine ⟨isNan_ofMagnitude _ (by omega), ?_, ?_⟩
    · simp
    · simp
      omega

theorem min_spec (hx : x.isNan = false) (hy : y.isNan = false) :
    (min x y = x ∨ min x y = y) ∧ (min x y).key ≤ x.key ∧ (min x y).key ≤ y.key := by
  unfold min
  simp only [hx, hy, Bool.false_eq_true, if_false]
  split_ifs with h
  · rw [lt_iff hy hx] at h
    exact ⟨.inr rfl, h.le, le_rfl⟩
  · rw [Bool.not_eq_true, lt_eq_false hy hx] at h
    exact ⟨.inl rfl, le_rfl, h⟩

theorem max_spec (hx : x.isNan = false) (hy : y.isNan = false) :
    (max x y = x ∨ max x y = y) ∧ x.key ≤ (max x y).key ∧ y.key ≤ (max x y).key := by
  unfold max
  simp only [hx, hy, Bool.false_eq_true, if_false]
  split_ifs with h
  · rw [lt_iff hx hy] at h
    exact ⟨.inr rfl, h.le, le_rfl⟩
  · rw [Bool.not_eq_true, lt_eq_false hx hy] at h
    exact ⟨.inl rfl, le_rfl, h⟩

theorem negative_abs (x : Binary64) : x.abs.negative = false :=
  negative_ofMagnitude false x.magnitude_lt

/-- A finite quotient of a number that is not negative is not negative. -/
theorem key_div_nonneg (hx : 0 ≤ x.key) (hy : y.negative = false) (h : (div x y).isFinite) :
    0 ≤ (div x y).key := by
  have hvalue : x.negative = true → x.magnitude = 0 := by
    intro hneg
    rw [key, if_pos hneg] at hx
    omega
  have hpositive {m : ℕ} (hm : m < 2 ^ 63) (hzero : x.negative = true → m = 0) :
      0 ≤ (ofMagnitude (x.negative != y.negative) m).key := by
    rw [key_ofMagnitude _ hm, hy]
    cases hs : x.negative
    · simp
    · simp [hzero hs]
  have hnan : nan.isFinite = false := by decide
  unfold div at h ⊢
  split_ifs at h ⊢ with h1 h2 h3 h4 h5 h6
  · simp [hnan] at h
  · simp [hnan] at h
  · apply hpositive infinite_lt
    intro hneg
    rw [isInfinite_iff, hvalue hneg] at h2
    exact absurd h2 (by decide)
  · exact hpositive (by decide) fun _ => rfl
  · simp [hnan] at h
  · exact hpositive infinite_lt fun hneg => absurd (hvalue hneg) h6
  · apply hpositive (round_lt _ _)
    intro hneg
    rw [hvalue hneg, units_zero, Nat.zero_mul, round_zero]

end Neighbours

/-- Equality of the numbers: NaN equals nothing, and the two zeros are equal. -/
def eq (x y : Binary64) : Bool := !x.isNan && !y.isNan && decide (x.key = y.key)

theorem eq_self (h : x.isNan = false) : eq x x = true := by simp [eq, h]

/-- The position in the total order: negative NaNs first, `-0` before `+0`. -/
def totalKey (x : Binary64) : ℤ := if x.negative then -(x.magnitude : ℤ) - 1 else x.magnitude

/-- The conversion of an integer to the nearest float. -/
def ofNat (n : ℕ) : Binary64 := ofMagnitude false (round (n * 2 ^ 1074) 1)

/-- The decimal text of a float, as the standard library prints it. -/
class Text where
  display : Binary64 → String

instance [Text] : FloatOps Binary64 where
  zero := zero
  add := add
  sub := sub
  mul := mul
  div := div
  infinity := infinity
  abs := abs
  isFinite := isFinite
  lt := lt
  le := le
  eq := eq
  ofNat := ofNat
  toBits x := x.bits
  totalCmp x y := compare x.totalKey y.totalKey
  display := Text.display

end Binary64

end FrankenSim.Library
