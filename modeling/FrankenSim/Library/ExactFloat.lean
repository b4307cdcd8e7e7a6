import Mathlib.Data.ENNReal.Inv
import Mathlib.Data.Rat.Encodable
import Mathlib.Tactic

/-!
# Floating-point operations and exact arithmetic

Programs over floats are written against the operations of a float type. Exact
arithmetic is one such type: the rationals with two infinities and a NaN, where
the finite operations do not round and the rest follows IEEE 754 (`0 * ∞` and
`∞ - ∞` are NaN, NaN compares false with everything). Nonnegative values are
read in the extended nonnegative reals, NaN as `∞`.
-/
namespace FrankenSim.Library

/-- The float operations that programs use. -/
class FloatOps (F : Type*) extends Zero F, Add F, Sub F, Mul F, Div F where
  infinity : F
  abs : F → F
  isFinite : F → Bool
  lt : F → F → Bool
  le : F → F → Bool
  eq : F → F → Bool
  ofNat : ℕ → F
  toBits : F → UInt64
  totalCmp : F → F → Ordering
  display : F → String

inductive ExactFloat
  | nan
  | negInf
  | fin (q : ℚ)
  | posInf
  deriving DecidableEq, Repr

namespace ExactFloat

def neg : ExactFloat → ExactFloat
  | nan => nan
  | negInf => posInf
  | fin q => fin (-q)
  | posInf => negInf

def add : ExactFloat → ExactFloat → ExactFloat
  | nan, _ | _, nan | negInf, posInf | posInf, negInf => nan
  | negInf, _ | _, negInf => negInf
  | posInf, _ | _, posInf => posInf
  | fin a, fin b => fin (a + b)

def sub (x y : ExactFloat) : ExactFloat := add x y.neg

/-- An infinity with the sign of a finite factor; `0 * ∞` is NaN. -/
def scaleInf (q : ℚ) (inf : ExactFloat) : ExactFloat :=
  if q = 0 then nan else if 0 < q then inf else inf.neg

def mul : ExactFloat → ExactFloat → ExactFloat
  | nan, _ | _, nan => nan
  | fin a, fin b => fin (a * b)
  | fin a, inf | inf, fin a => scaleInf a inf
  | posInf, posInf | negInf, negInf => posInf
  | posInf, negInf | negInf, posInf => negInf

def div : ExactFloat → ExactFloat → ExactFloat
  | nan, _ | _, nan => nan
  | fin a, fin b => if b = 0 then scaleInf a posInf else fin (a / b)
  | fin _, _ => fin 0
  | inf, fin b => if b < 0 then inf.neg else inf
  | _, _ => nan

def abs : ExactFloat → ExactFloat
  | nan => nan
  | fin q => fin |q|
  | negInf | posInf => posInf

def isFinite : ExactFloat → Bool
  | fin _ => true
  | _ => false

def lt : ExactFloat → ExactFloat → Bool
  | fin a, fin b => decide (a < b)
  | negInf, fin _ | negInf, posInf | fin _, posInf => true
  | _, _ => false

def eq : ExactFloat → ExactFloat → Bool
  | nan, _ => false
  | x, y => decide (x = y)

/-- A total order in which NaN comes last. -/
def totalCmp (x y : ExactFloat) : Ordering :=
  if x = y then .eq else if lt x y || y = nan then .lt else .gt

def toBits : ExactFloat → UInt64
  | nan => 0
  | negInf => 1
  | posInf => 2
  | fin q => UInt64.ofNat (Encodable.encode q + 3)

def display : ExactFloat → String
  | nan => "NaN"
  | negInf => "-inf"
  | posInf => "inf"
  | fin q => toString q

instance : FloatOps ExactFloat where
  zero := fin 0
  add := add
  sub := sub
  mul := mul
  div := div
  infinity := posInf
  abs := abs
  isFinite := isFinite
  lt := lt
  le x y := lt x y || eq x y
  eq := eq
  ofNat n := fin n
  toBits := toBits
  totalCmp := totalCmp
  display := display

theorem zero_def : (0 : ExactFloat) = fin 0 := rfl

@[simp] theorem fin_add_fin (a b : ℚ) : fin a + fin b = fin (a + b) := rfl

@[simp] theorem fin_sub_fin (a b : ℚ) : fin a - fin b = fin (a - b) := by
  change fin (a + -b) = _
  rw [sub_eq_add_neg]

@[simp] theorem fin_mul_fin (a b : ℚ) : fin a * fin b = fin (a * b) := rfl

@[simp] theorem isFinite_fin (q : ℚ) : FloatOps.isFinite (fin q) = true := rfl

@[simp] theorem lt_fin (a b : ℚ) : FloatOps.lt (fin a) (fin b) = decide (a < b) := rfl

@[simp] theorem eq_fin (a b : ℚ) : FloatOps.eq (fin a) (fin b) = decide (a = b) := by
  change decide (fin a = fin b) = _
  simp

@[simp] theorem le_fin (a b : ℚ) : FloatOps.le (fin a) (fin b) = decide (a ≤ b) := by
  change (FloatOps.lt (fin a) (fin b) || FloatOps.eq (fin a) (fin b)) = _
  simp [le_iff_lt_or_eq]

theorem isFinite_iff {x : ExactFloat} : FloatOps.isFinite x = true ↔ ∃ q, x = fin q := by
  cases x <;> simp [FloatOps.isFinite, isFinite]

/-- The value of a finite float. -/
def toRat : ExactFloat → ℚ
  | fin q => q
  | _ => 0

@[simp] theorem toRat_fin (q : ℚ) : toRat (fin q) = q := rfl

/-! ### Magnitudes -/

/-- A value that is not negative; NaN counts as an unbounded magnitude. -/
def IsMagnitude : ExactFloat → Prop
  | negInf => False
  | fin q => 0 ≤ q
  | _ => True

/-- A magnitude read as an extended nonnegative real. -/
noncomputable def toENNReal : ExactFloat → ENNReal
  | negInf => 0
  | fin q => ENNReal.ofReal q
  | _ => ⊤

theorem isMagnitude_zero : IsMagnitude 0 := le_refl (0 : ℚ)

theorem isMagnitude_abs (x : ExactFloat) : IsMagnitude (FloatOps.abs x) := by
  cases x <;> simp [FloatOps.abs, abs, IsMagnitude]

theorem IsMagnitude.add {x y : ExactFloat} (hx : IsMagnitude x) (hy : IsMagnitude y) :
    IsMagnitude (x + y) := by
  change IsMagnitude (ExactFloat.add x y)
  cases x <;> cases y <;> simp_all [ExactFloat.add, IsMagnitude]
  linarith

theorem toENNReal_zero : toENNReal 0 = 0 := by simp [toENNReal]

theorem toENNReal_add {x y : ExactFloat} (hx : IsMagnitude x) (hy : IsMagnitude y) :
    toENNReal (x + y) = toENNReal x + toENNReal y := by
  change toENNReal (ExactFloat.add x y) = _
  cases x <;> cases y <;> simp_all [ExactFloat.add, IsMagnitude, toENNReal]
  rw [ENNReal.ofReal_add (by exact_mod_cast hx) (by exact_mod_cast hy)]

/-- Scaling a magnitude by a nonnegative rational, where `0 * ∞` is unbounded. -/
noncomputable def scale (q : ℚ) (x : ENNReal) : ENNReal :=
  if q = 0 ∧ x = ⊤ then ⊤ else ENNReal.ofReal q * x

theorem scale_mono (q : ℚ) : Monotone (scale q) := by
  intro x y hxy
  unfold scale
  by_cases hy : q = 0 ∧ y = ⊤
  · rw [if_pos hy]
    exact le_top
  · rw [if_neg hy, if_neg]
    · exact mul_le_mul_right hxy _
    · rintro ⟨hq, hx⟩
      exact hy ⟨hq, top_le_iff.1 (hx ▸ hxy)⟩

theorem IsMagnitude.mul {q : ℚ} {x : ExactFloat} (hq : 0 ≤ q) (hx : IsMagnitude x) :
    IsMagnitude (fin q * x) := by
  change IsMagnitude (ExactFloat.mul (fin q) x)
  cases x with
  | nan => trivial
  | negInf => exact absurd hx id
  | fin r => exact mul_nonneg hq hx
  | posInf =>
    simp only [ExactFloat.mul, scaleInf]
    split_ifs with h0 h1
    · trivial
    · trivial
    · exact absurd (lt_of_le_of_ne hq (Ne.symm h0)) h1

theorem toENNReal_mul {q : ℚ} {x : ExactFloat} (hq : 0 ≤ q) (hx : IsMagnitude x) :
    toENNReal (fin q * x) = scale q (toENNReal x) := by
  change toENNReal (ExactFloat.mul (fin q) x) = _
  have htop : scale q ⊤ = ⊤ := by
    unfold scale
    split_ifs with h
    · rfl
    · have hpos : 0 < q := lt_of_le_of_ne hq fun h0 => h ⟨h0.symm, rfl⟩
      exact ENNReal.mul_top (by simpa using hpos)
  cases x with
  | nan => simp [ExactFloat.mul, toENNReal, htop]
  | negInf => exact absurd hx id
  | fin r =>
    have hq' : (0 : ℝ) ≤ q := by exact_mod_cast hq
    simp [ExactFloat.mul, toENNReal, scale, ENNReal.ofReal_mul hq']
  | posInf =>
    simp only [ExactFloat.mul, scaleInf]
    split_ifs with h0 h1
    · simp [toENNReal, htop]
    · simp [toENNReal, htop]
    · exact absurd (lt_of_le_of_ne hq (Ne.symm h0)) h1

theorem eq_zero_iff {x : ExactFloat} (hx : IsMagnitude x) :
    FloatOps.eq x 0 = true ↔ toENNReal x = 0 := by
  rw [zero_def]
  cases x with
  | nan => simp [FloatOps.eq, eq, toENNReal]
  | negInf => exact absurd hx id
  | posInf => simp [FloatOps.eq, eq, toENNReal]
  | fin q =>
    simp only [eq_fin, decide_eq_true_eq, toENNReal, ENNReal.ofReal_eq_zero]
    exact ⟨fun h => by simp [h], fun h => le_antisymm (by exact_mod_cast h) hx⟩

theorem isFinite_iff_ne_top {x : ExactFloat} (hx : IsMagnitude x) :
    FloatOps.isFinite x = true ↔ toENNReal x ≠ ⊤ := by
  cases x with
  | negInf => exact absurd hx id
  | _ => simp [FloatOps.isFinite, isFinite, toENNReal]

end ExactFloat

end FrankenSim.Library
