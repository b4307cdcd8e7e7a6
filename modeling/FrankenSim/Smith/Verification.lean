import FrankenSim.Smith.Matrices
import FrankenSim.Library.Refusals
import FrankenSim.Library.DiagonalForms
import Mathlib.LinearAlgebra.Matrix.Determinant.Basic

/-!
# Verification of Smith witnesses

A witness carries both transforms, their inverses and the diagonal. The verifier
recomputes every product with checked arithmetic and scans the diagonal. Its success
proves the equations, and its structural refusals refute one of them.
-/
namespace FrankenSim.Smith

open Library

structure SmithNormalFormWitness where
  diagonal : ExactIntegerMatrix
  left : ExactIntegerMatrix
  leftInverse : ExactIntegerMatrix
  right : ExactIntegerMatrix
  rightInverse : ExactIntegerMatrix

structure VerifiedSmithNormalForm where
  source : ExactIntegerMatrix
  witness : SmithNormalFormWitness
  rank : ℕ
  invariantFactors : List ℤ
  scalarOperations : ℕ

def requireShape (matrix : ExactIntegerMatrix) (role : MatrixRole) (expectedRows expectedCols : ℕ) :
    Except IntegralTopologyError Unit :=
  refuseIf (matrix.rows ≠ expectedRows ∨ matrix.cols ≠ expectedCols)
    (.witnessShape role expectedRows expectedCols matrix.rows matrix.cols)

/-- The factors of the diagonal so far and whether a zero was seen. -/
structure FactorScan where
  invariantFactors : List ℤ
  zeroSeen : Bool

def scanFactor (index : ℕ) (value : ℤ) (scan : FactorScan) :
    Except IntegralTopologyError FactorScan :=
  if value < 0 then .error (.negativeInvariantFactor index value)
  else if value = 0 then .ok { scan with zeroSeen := true }
  else if scan.zeroSeen then .error (.nonzeroAfterZero index value)
  else match scan.invariantFactors.getLast? with
    | some previous =>
      if previous = 0 ∨ value % previous ≠ 0 then
        .error (.invariantFactorDivisibility index previous value)
      else .ok { scan with invariantFactors := scan.invariantFactors ++ [value] }
    | none => .ok { scan with invariantFactors := scan.invariantFactors ++ [value] }

namespace Machine

variable (machine : Machine)

/-- A running sum of extents, each partial sum checked. -/
def checkedTotal (phase : String) (first : ℕ) (rest : List ℕ) : Except IntegralTopologyError ℕ :=
  rest.foldlM (fun total value => machine.checkedExtent (total + value) phase) first

def preflightShapes (source : ExactIntegerMatrix) (witness : SmithNormalFormWitness)
    (budget : ExactAlgebraBudget) : Except IntegralTopologyError Unit := do
  source.ensureWithin .source budget
  witness.diagonal.ensureWithin .diagonal budget
  witness.left.ensureWithin .leftTransform budget
  witness.leftInverse.ensureWithin .leftInverse budget
  witness.right.ensureWithin .rightTransform budget
  witness.rightInverse.ensureWithin .rightInverse budget
  requireShape witness.diagonal .diagonal source.rows source.cols
  requireShape witness.left .leftTransform source.rows source.rows
  requireShape witness.leftInverse .leftInverse source.rows source.rows
  requireShape witness.right .rightTransform source.cols source.cols
  requireShape witness.rightInverse .rightInverse source.cols source.cols
  let retained ← machine.checkedTotal "retained smith witness entries" source.entries.length
    [witness.diagonal.entries.length, witness.left.entries.length,
      witness.leftInverse.entries.length, witness.right.entries.length,
      witness.rightInverse.entries.length]
  refuseIf ((retained : ℕ∞) > budget.maxRetainedEntries)
    (.retainedEntryBudgetExceeded retained budget.maxRetainedEntries)
  let workspace ← machine.checkedExtent (source.rows * source.cols) "smith workspace entries"
  refuseIf ((workspace : ℕ∞) > budget.maxWorkspaceEntries)
    (.workspaceEntryBudgetExceeded workspace budget.maxWorkspaceEntries)

/-- A product of counts, each partial product checked. -/
def checkedProduct (phase : String) (first : ℕ) (rest : List ℕ) : Except IntegralTopologyError ℕ :=
  rest.foldlM (fun product value => machine.checkedCount (product * value) phase) first

def plannedScalarOperations (rows cols : ℕ) : Except IntegralTopologyError ℕ := do
  let rows ← machine.checkedCount rows "row work units"
  let cols ← machine.checkedCount cols "column work units"
  let leftInverse ← machine.checkedProduct "left inverse verification work" rows [rows, rows, 2]
  let rightInverse ← machine.checkedProduct "right inverse verification work" cols [cols, cols, 2]
  let leftTimesSource ← machine.checkedProduct "left transform work" rows [rows, cols]
  let diagonalTransform ← machine.checkedProduct "right transform work" rows [cols, cols]
  let inverses ← machine.checkedCount (leftInverse + rightInverse) "total smith verification work"
  let transforms ← machine.checkedCount (inverses + leftTimesSource) "total smith verification work"
  machine.checkedCount (transforms + diagonalTransform) "total smith verification work"

/-- The inner product of a row and a column, with the count of its terms. -/
def checkedDot (left : ExactIntegerMatrix) (row : ℕ) (right : ExactIntegerMatrix) (col : ℕ)
    (stage : SmithWitnessStage) (completed : ℕ) : Except IntegralTopologyError (ℤ × ℕ) :=
  (List.range left.cols).foldlM (fun state term => do
    let product ← machine.checkedCoefficient (left.entry row term * right.entry term col)
      (.arithmeticOverflow stage row col term)
    let sum ← machine.checkedCoefficient (state.1 + product)
      (.arithmeticOverflow stage row col term)
    let completed ← machine.checkedCount (state.2 + 1) "completed scalar operations"
    pure (sum, completed)) (0, completed)

def verifyIdentityProduct (left right : ExactIntegerMatrix) (stage : SmithWitnessStage)
    (completed : ℕ) : Except IntegralTopologyError ℕ :=
  forGrid left.rows right.cols (fun completed row col => do
    let (actual, completed) ← machine.checkedDot left row right col stage completed
    let expected : ℤ := if row = col then 1 else 0
    refuseIf (actual ≠ expected) (.witnessProductMismatch stage row col expected actual)
    pure completed) completed

def verifyCanonicalDiagonal (diagonal : ExactIntegerMatrix) :
    Except IntegralTopologyError (List ℤ) := do
  forGrid diagonal.rows diagonal.cols (fun _ row col =>
    refuseIf (row ≠ col ∧ diagonal.entry row col ≠ 0)
      (.offDiagonalEntry row col (diagonal.entry row col))) ()
  machine.reserveExact "smith invariant factors" (min diagonal.rows diagonal.cols)
  let scan ← (List.range (min diagonal.rows diagonal.cols)).foldlM (fun scan index =>
    scanFactor index (diagonal.entry index index) scan) ⟨[], false⟩
  pure scan.invariantFactors

def verifyTransformProduct (source : ExactIntegerMatrix) (witness : SmithNormalFormWitness)
    (completed : ℕ) : Except IntegralTopologyError ℕ := do
  let workspace ← machine.checkedExtent (source.rows * source.cols) "smith workspace entries"
  machine.reserveExact "left-times-source workspace" workspace
  let (leftTimesSource, completed) ← forGrid source.rows source.cols (fun state row col => do
    let (sum, completed) ← machine.checkedDot witness.left row source col .leftTimesSource state.2
    pure (state.1.setEntry row col sum, completed))
    (ExactIntegerMatrix.zeroed source.rows source.cols, completed)
  forGrid source.rows source.cols (fun completed row col => do
    let (actual, completed) ←
      machine.checkedDot leftTimesSource row witness.right col .diagonalTransform completed
    let expected := witness.diagonal.entry row col
    refuseIf (actual ≠ expected) (.witnessProductMismatch .diagonalTransform row col expected actual)
    pure completed) completed

/-- The verifier of a complete Smith witness. -/
def verifySmithNormalForm (source : ExactIntegerMatrix) (witness : SmithNormalFormWitness)
    (budget : ExactAlgebraBudget) : Except IntegralTopologyError VerifiedSmithNormalForm := do
  machine.preflightShapes source witness budget
  let planned ← machine.plannedScalarOperations source.rows source.cols
  refuseIf ((planned : ℕ∞) > budget.maxScalarOperations)
    (.scalarWorkBudgetExceeded planned budget.maxScalarOperations)
  let completed ← machine.verifyIdentityProduct witness.left witness.leftInverse
    .leftTimesInverse 0
  let completed ← machine.verifyIdentityProduct witness.leftInverse witness.left
    .leftInverseTimesTransform completed
  let completed ← machine.verifyIdentityProduct witness.right witness.rightInverse
    .rightTimesInverse completed
  let completed ← machine.verifyIdentityProduct witness.rightInverse witness.right
    .rightInverseTimesTransform completed
  let invariantFactors ← machine.verifyCanonicalDiagonal witness.diagonal
  let completed ← machine.verifyTransformProduct source witness completed
  pure {
    source := source
    witness := witness
    rank := invariantFactors.length
    invariantFactors := invariantFactors
    scalarOperations := completed }

end Machine

end FrankenSim.Smith
