import Mathlib.Data.ENat.Basic
import Mathlib.Data.Matrix.Mul
import Mathlib.Tactic.Linarith

/-!
# Exact integer matrices and their budgets

A matrix is a dense row-major list of entries with its extents. The machine holds
entries, work counts and extents in words and may refuse an allocation; the
unbounded machine refuses nothing. The polls of a checkpoint that never refuses have
no effect and are left out.
-/
namespace FrankenSim.Smith

/-- Which values the machine represents and which allocations it grants. -/
structure Machine where
  coefficient : ℤ → Bool
  count : ℕ → Bool
  extent : ℕ → Bool
  allocates : String → ℕ → Bool

namespace Machine

/-- Entries are `i128`, work counts `u128` and extents `usize`. -/
def word (allocates : String → ℕ → Bool) : Machine where
  coefficient value := decide (-2 ^ 127 ≤ value ∧ value < 2 ^ 127)
  count value := decide (value < 2 ^ 128)
  extent value := decide (value < 2 ^ 64)
  allocates := allocates

def unbounded : Machine where
  coefficient _ := true
  count _ := true
  extent _ := true
  allocates _ _ := true

end Machine

inductive MatrixRole
  | source
  | diagonal
  | leftTransform
  | leftInverse
  | rightTransform
  | rightInverse
  deriving DecidableEq, Repr

inductive SmithWitnessStage
  | leftTimesInverse
  | leftInverseTimesTransform
  | rightTimesInverse
  | rightInverseTimesTransform
  | leftTimesSource
  | diagonalTransform
  deriving DecidableEq, Repr

inductive SmithConstructionStage
  | rowReduction
  | columnReduction
  | divisibilityRepair
  | signNormalization
  deriving DecidableEq, Repr

/-- Limits of exact matrix work; no limit is the top element. -/
structure ExactAlgebraBudget where
  maxRows : ℕ∞
  maxCols : ℕ∞
  maxMatrixEntries : ℕ∞
  maxRetainedEntries : ℕ∞
  maxWorkspaceEntries : ℕ∞
  maxScalarOperations : ℕ∞

def ExactAlgebraBudget.unlimited : ExactAlgebraBudget := ⟨⊤, ⊤, ⊤, ⊤, ⊤, ⊤⟩

structure SmithConstructionBudget where
  maxLiveEntries : ℕ∞
  maxElementaryOperations : ℕ∞
  maxEntrySteps : ℕ∞
  maxAbsCoefficient : ℕ∞

def SmithConstructionBudget.unlimited : SmithConstructionBudget := ⟨⊤, ⊤, ⊤, ⊤⟩

inductive IntegralTopologyError
  | retainedMatrixExceedsBudget (role : MatrixRole) (rows cols entries : ℕ)
  | matrixEntryBudgetExceeded (requested : ℕ) (max : ℕ∞)
  | retainedEntryBudgetExceeded (requested : ℕ) (max : ℕ∞)
  | workspaceEntryBudgetExceeded (requested : ℕ) (max : ℕ∞)
  | scalarWorkBudgetExceeded (requested : ℕ) (max : ℕ∞)
  | workPlanOverflow (phase : String)
  | allocationRefused (phase : String) (requestedEntries : ℕ)
  | arithmeticOverflow (stage : SmithWitnessStage) (row col term : ℕ)
  | witnessShape (role : MatrixRole) (expectedRows expectedCols actualRows actualCols : ℕ)
  | witnessProductMismatch (stage : SmithWitnessStage) (row col : ℕ) (expected actual : ℤ)
  | offDiagonalEntry (row col : ℕ) (value : ℤ)
  | negativeInvariantFactor (index : ℕ) (value : ℤ)
  | nonzeroAfterZero (index : ℕ) (value : ℤ)
  | invariantFactorDivisibility (index : ℕ) (previous value : ℤ)
  | smithConstructionLiveEntryBudgetExceeded (requested : ℕ) (max : ℕ∞)
  | smithConstructionOperationBudgetExceeded (requested : ℕ) (max : ℕ∞)
  | smithConstructionEntryStepBudgetExceeded (requested : ℕ) (max : ℕ∞)
  | smithConstructionCoefficientMagnitudeExceeded (role : MatrixRole) (row col magnitude : ℕ)
      (max : ℕ∞)
  | smithConstructionArithmeticOverflow (stage : SmithConstructionStage) (role : MatrixRole)
      (row col : ℕ)
  | smithConstructionInvariantLost (field : String)
  deriving DecidableEq

inductive IntegralTopologyFailureClass
  | refuted
  | unknown
  deriving DecidableEq, Repr

/-- A structural counterexample or an inconclusive refusal. -/
def IntegralTopologyError.failureClass : IntegralTopologyError → IntegralTopologyFailureClass
  | .witnessShape .. | .witnessProductMismatch .. | .offDiagonalEntry ..
  | .negativeInvariantFactor .. | .nonzeroAfterZero .. | .invariantFactorDivisibility .. =>
      .refuted
  | .retainedMatrixExceedsBudget .. | .matrixEntryBudgetExceeded ..
  | .retainedEntryBudgetExceeded .. | .workspaceEntryBudgetExceeded ..
  | .scalarWorkBudgetExceeded .. | .workPlanOverflow .. | .allocationRefused ..
  | .arithmeticOverflow .. | .smithConstructionLiveEntryBudgetExceeded ..
  | .smithConstructionOperationBudgetExceeded .. | .smithConstructionEntryStepBudgetExceeded ..
  | .smithConstructionCoefficientMagnitudeExceeded .. | .smithConstructionArithmeticOverflow ..
  | .smithConstructionInvariantLost .. => .unknown

namespace Machine

variable (machine : Machine)

def checkedCoefficient (value : ℤ) (error : IntegralTopologyError) :
    Except IntegralTopologyError ℤ :=
  if machine.coefficient value then .ok value else .error error

def checkedCount (value : ℕ) (phase : String) : Except IntegralTopologyError ℕ :=
  if machine.count value then .ok value else .error (.workPlanOverflow phase)

def checkedExtent (value : ℕ) (phase : String) : Except IntegralTopologyError ℕ :=
  if machine.extent value then .ok value else .error (.workPlanOverflow phase)

/-- Room for a number of entries. -/
def reserveExact (phase : String) (entries : ℕ) : Except IntegralTopologyError Unit :=
  if machine.allocates phase entries then .ok () else .error (.allocationRefused phase entries)

end Machine

/-- Refuse when a condition holds. -/
def refuseIf (condition : Prop) [Decidable condition] (error : IntegralTopologyError) :
    Except IntegralTopologyError Unit :=
  if condition then .error error else .ok ()

/-- Dense row-major integer matrix with its extents. -/
structure ExactIntegerMatrix where
  rows : ℕ
  cols : ℕ
  entries : List ℤ
  length_eq : entries.length = rows * cols
  deriving DecidableEq

namespace ExactIntegerMatrix

def entry (self : ExactIntegerMatrix) (row col : ℕ) : ℤ :=
  self.entries.getD (row * self.cols + col) 0

def get (self : ExactIntegerMatrix) (row col : ℕ) : Option ℤ :=
  if row ≥ self.rows ∨ col ≥ self.cols then none else some (self.entry row col)

/-- The matrix with one entry replaced. -/
def setEntry (self : ExactIntegerMatrix) (row col : ℕ) (value : ℤ) : ExactIntegerMatrix where
  rows := self.rows
  cols := self.cols
  entries := self.entries.set (row * self.cols + col) value
  length_eq := by rw [List.length_set, self.length_eq]

def zeroed (rows cols : ℕ) : ExactIntegerMatrix where
  rows := rows
  cols := cols
  entries := List.replicate (rows * cols) 0
  length_eq := List.length_replicate

def ensureWithin (self : ExactIntegerMatrix) (role : MatrixRole) (budget : ExactAlgebraBudget) :
    Except IntegralTopologyError Unit :=
  refuseIf ((self.rows : ℕ∞) > budget.maxRows ∨ (self.cols : ℕ∞) > budget.maxCols ∨
      (self.entries.length : ℕ∞) > budget.maxMatrixEntries)
    (.retainedMatrixExceedsBudget role self.rows self.cols self.entries.length)

/-- The entry inside the rectangle and zero outside. -/
def value (self : ExactIntegerMatrix) (row col : ℕ) : ℤ :=
  (self.get row col).getD 0

theorem value_of_lt {self : ExactIntegerMatrix} {row col : ℕ} (hrow : row < self.rows)
    (hcol : col < self.cols) : self.value row col = self.entry row col := by
  rw [value, get, if_neg (by omega)]
  rfl

theorem value_of_not_lt {self : ExactIntegerMatrix} {row col : ℕ}
    (h : ¬ (row < self.rows ∧ col < self.cols)) : self.value row col = 0 := by
  rw [value, get, if_pos (by omega)]
  rfl

@[simp] theorem setEntry_rows (self : ExactIntegerMatrix) (row col : ℕ) (value : ℤ) :
    (self.setEntry row col value).rows = self.rows := rfl

@[simp] theorem setEntry_cols (self : ExactIntegerMatrix) (row col : ℕ) (value : ℤ) :
    (self.setEntry row col value).cols = self.cols := rfl

/-- Row-major positions inside the rectangle are distinct. -/
theorem position_inj {cols row col row' col' : ℕ} (hcol : col < cols) (hcol' : col' < cols)
    (h : row * cols + col = row' * cols + col') : row = row' ∧ col = col' := by
  have hpos : 0 < cols := by omega
  have hmod := congrArg (· % cols) h
  simp only [Nat.mul_add_mod', Nat.mod_eq_of_lt hcol, Nat.mod_eq_of_lt hcol'] at hmod
  subst hmod
  exact ⟨Nat.eq_of_mul_eq_mul_right hpos (Nat.add_right_cancel h), rfl⟩

theorem position_lt {rows cols row col : ℕ} (hrow : row < rows) (hcol : col < cols) :
    row * cols + col < rows * cols := by
  have := Nat.mul_le_mul_right cols (Nat.succ_le_of_lt hrow)
  rw [Nat.succ_mul] at this
  omega

theorem value_setEntry (self : ExactIntegerMatrix) {row col : ℕ} (v : ℤ) (hrow : row < self.rows)
    (hcol : col < self.cols) (r c : ℕ) :
    (self.setEntry row col v).value r c = if r = row ∧ c = col then v else self.value r c := by
  by_cases hin : r < self.rows ∧ c < self.cols
  · rw [value_of_lt (show r < (self.setEntry row col v).rows from hin.1) hin.2,
      value_of_lt hin.1 hin.2]
    simp only [entry, setEntry, List.getD_eq_getElem?_getD]
    split_ifs with heq
    · obtain ⟨rfl, rfl⟩ := heq
      rw [List.getElem?_set_self, Option.getD_some]
      rw [self.length_eq]
      exact position_lt hin.1 hin.2
    · rw [List.getElem?_set_ne]
      intro hpos
      obtain ⟨h1, h2⟩ := position_inj hcol hin.2 hpos
      exact heq ⟨h1.symm, h2.symm⟩
  · rw [value_of_not_lt hin, if_neg]
    · exact value_of_not_lt hin
    · rintro ⟨rfl, rfl⟩
      exact hin ⟨hrow, hcol⟩

@[simp] theorem value_zeroed (rows cols r c : ℕ) : (zeroed rows cols).value r c = 0 := by
  by_cases hin : r < rows ∧ c < cols
  · rw [value_of_lt (show r < (zeroed rows cols).rows from hin.1) hin.2]
    simp [entry, zeroed, List.getD_eq_getElem?_getD, List.getElem?_replicate]
    split_ifs <;> rfl
  · exact value_of_not_lt hin

/-- The matrix as a mathematical one of the given extents. -/
def toMatrix (self : ExactIntegerMatrix) (m n : ℕ) : Matrix (Fin m) (Fin n) ℤ :=
  Matrix.of fun i j => self.value i j

@[simp] theorem toMatrix_apply (self : ExactIntegerMatrix) {m n : ℕ} (i : Fin m) (j : Fin n) :
    self.toMatrix m n i j = self.value i j := rfl

end ExactIntegerMatrix

end FrankenSim.Smith
