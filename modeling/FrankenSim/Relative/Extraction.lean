import FrankenSim.Library.BinarySearch
import FrankenSim.Library.Polls
import FrankenSim.Relative.Complex
import FrankenSim.Smith.Verification
import Mathlib.Data.String.Basic

/-!
# Extraction of relative boundary matrices

The boundary of one degree is projected to the cells of one component outside the
relative subcomplex. The bases are visited in the order of the cells, and every
ambient incidence between them is written into the matrix.
-/
namespace FrankenSim.Relative

open Library Library.Polled Smith

structure ConductorComponent where
  id : String
  support : CellularSubcomplex
  deriving DecidableEq

/-- What an admitted pair holds of its complex, its relative subcomplex and its phases. -/
structure TerminalRelativePair where
  identity : List UInt8
  complex : FiniteCellComplex
  relative : CellularSubcomplex
  components : List ConductorComponent
  phaseComponents : SortedMap String String

def TerminalRelativePair.phaseComponent (pair : TerminalRelativePair) (phase : String) :
    Option String :=
  pair.phaseComponents.get? phase

/-- A cell of a degree that the relative subcomplex does not hold. -/
def TerminalRelativePair.hasBasisCell (pair : TerminalRelativePair) (degree : Option ℕ)
    (cell : CellRef) : Bool :=
  !pair.relative.cells.contains cell && decide (some cell.degree = degree)

structure TerminalRelativeBoundaryBudget where
  maxRows : ℕ
  maxCols : ℕ
  maxMatrixEntries : ℕ
  maxRetainedEntries : ℕ
  maxComponentVisits : ℕ
  maxIncidenceVisits : ℕ

/-- Refusals of the extraction and of the transport, beside those of exact matrix work. -/
inductive RelativeError
  | algebra (error : IntegralTopologyError)
  | unknownTerminalRelativePhase (phase : String)
  | boundaryDegreeOutOfRange (degree max : ℕ)
  | phaseComponentBindingLost (phase component : String)
  | componentVisitBudgetExceeded (requested max : ℕ)
  | incidenceVisitBudgetExceeded (requested max : ℕ)
  | pairBoundaryCancelled (phase : String) (completedWorkItems plannedWorkItems : ℕ)
  | matrixExtentExceeded (rows cols maxRows maxCols : ℕ)
  | adjacentBoundaryBindingMismatch (field : String)
  | adjacentBoundaryDegreeMismatch (outgoing incomingSource : ℕ) (incomingTarget : Option ℕ)
  | adjacentBoundaryBasisMismatch (index : ℕ) (outgoing incoming : Option CellRef)
  | kernelCoordinateInvariantLost (field : String)
  | outgoingSmithSourceShapeMismatch (expectedRows expectedCols actualRows actualCols : ℕ)
  | outgoingSmithSourceEntryMismatch (row col : ℕ) (expected actual : ℤ)
  | kernelCoordinateExtentExceeded (outgoingRows chainExtent incomingCols max : ℕ)
  | kernelBindingBudgetExceeded (requested max : ℕ)
  | kernelCoordinateCancelled (phase : String) (completedBindingItems plannedBindingItems
      completedScalarOperations plannedScalarOperations : ℕ)
  | kernelCoordinateArithmeticOverflow (row col term : ℕ)
  | incomingImageOutsideKernel (row col : ℕ) (coordinate invariantFactor : ℤ)
  deriving DecidableEq

/-- Exact matrix work inside of an extraction. -/
def algebra {α : Type} (x : Except IntegralTopologyError α) : Polled RelativeError α :=
  unpolled (x.mapError .algebra)

/-- A degree in a byte. -/
def checkedDegree (degree : ℕ) (phase : String) : Polled RelativeError ℕ :=
  unpolled (if degree < 2 ^ 8 then .ok degree else .error (.algebra (.workPlanOverflow phase)))

structure TerminalRelativeBoundaryMatrix where
  pair : List UInt8
  phase : String
  component : String
  sourceDegree : ℕ
  targetDegree : Option ℕ
  sourceBasis : List CellRef
  targetBasis : List CellRef
  matrix : ExactIntegerMatrix
  workItems : ℕ
  deriving DecidableEq

/-- The degree below, when there is one. -/
def degreeBelow (degree : ℕ) : Option ℕ := if degree = 0 then none else some (degree - 1)

/-- The visits completed and the basis cells counted. -/
structure BasisCount where
  completed : ℕ
  sourceCount : ℕ
  targetCount : ℕ

/-- The visits completed and the basis cells collected. -/
structure BasisCells where
  completed : ℕ
  sourceBasis : List CellRef
  targetBasis : List CellRef

section Extraction

variable (machine : Machine) (pair : TerminalRelativePair) (sourceDegree : ℕ)
  (checkpoint : Checkpoint) (planned : ℕ)

def pollPairBoundary (phase : String) (completed : ℕ) : Polled RelativeError Unit :=
  poll checkpoint phase (.pairBoundaryCancelled phase completed planned)

def completePairBoundaryItem (completed : ℕ) : Polled RelativeError ℕ :=
  algebra (machine.checkedCount (completed + 1) "completed terminal-relative boundary work")

/-- One more basis cell, when the cell is one. -/
def countCell (counts : Bool) (count : ℕ) (phase : String) :
    Polled RelativeError ℕ :=
  if counts then algebra (machine.checkedExtent (count + 1) phase) else pure count

def countBasisCell (count : BasisCount) (cell : CellRef) : Polled RelativeError BasisCount := do
  pollPairBoundary checkpoint planned "terminal-relative basis count" count.completed
  let sourceCount ← countCell machine (pair.hasBasisCell (some sourceDegree) cell)
    count.sourceCount "terminal-relative source basis count"
  let targetCount ← countCell machine (pair.hasBasisCell (degreeBelow sourceDegree) cell)
    count.targetCount "terminal-relative target basis count"
  let completed ← completePairBoundaryItem machine count.completed
  pure ⟨completed, sourceCount, targetCount⟩

def materializeBasisCell (bases : BasisCells) (cell : CellRef) :
    Polled RelativeError BasisCells := do
  pollPairBoundary checkpoint planned "terminal-relative basis materialization" bases.completed
  let completed ← completePairBoundaryItem machine bases.completed
  pure {
    completed := completed
    sourceBasis :=
      if pair.hasBasisCell (some sourceDegree) cell then bases.sourceBasis ++ [cell]
      else bases.sourceBasis
    targetBasis :=
      if pair.hasBasisCell (degreeBelow sourceDegree) cell then bases.targetBasis ++ [cell]
      else bases.targetBasis }

/-- Write an incidence between two basis cells into the matrix. -/
def projectEntry (targetBasis sourceBasis : List CellRef) (matrix : ExactIntegerMatrix)
    (incidence : BoundaryIncidence) : ExactIntegerMatrix :=
  match binarySearch targetBasis incidence.lower, binarySearch sourceBasis incidence.upper with
  | some row, some col => matrix.setEntry row col incidence.sign.asI128
  | _, _ => matrix

def projectIncidence (targetBasis sourceBasis : List CellRef) (state : ExactIntegerMatrix × ℕ)
    (incidence : BoundaryIncidence) : Polled RelativeError (ExactIntegerMatrix × ℕ) := do
  pollPairBoundary checkpoint planned "terminal-relative incidence projection" state.2
  let completed ← completePairBoundaryItem machine state.2
  pure (projectEntry targetBasis sourceBasis state.1 incidence, completed)

def preflightBoundaryOutput (rows cols : ℕ) (budget : TerminalRelativeBoundaryBudget) :
    Polled RelativeError Unit := do
  refuseIf (rows > budget.maxRows ∨ cols > budget.maxCols)
    (.matrixExtentExceeded rows cols budget.maxRows budget.maxCols)
  let matrixEntries ←
    algebra (machine.checkedExtent (rows * cols) "terminal-relative boundary entry count")
  refuseIf (matrixEntries > budget.maxMatrixEntries)
    (.algebra (.matrixEntryBudgetExceeded matrixEntries budget.maxMatrixEntries))
  let retained ← algebra (machine.checkedTotal "terminal-relative boundary retained entries"
    matrixEntries [rows, cols])
  refuseIf (retained > budget.maxRetainedEntries)
    (.algebra (.retainedEntryBudgetExceeded retained budget.maxRetainedEntries))

end Extraction

/-- The matrix of the boundary of one degree on one phase's component. The bases are the
cells outside the relative subcomplex, of the degree and of the one below. -/
def extractTerminalRelativeBoundaryMatrixWithCheckpoint (machine : Machine)
    (pair : TerminalRelativePair) (phase : String) (sourceDegree : ℕ)
    (budget : TerminalRelativeBoundaryBudget) (checkpoint : Checkpoint) :
    Polled RelativeError TerminalRelativeBoundaryMatrix := do
  let componentId ← orRefuse (pair.phaseComponent phase) (.unknownTerminalRelativePhase phase)
  let maxSourceDegree ←
    checkedDegree (pair.complex.dimension + 1) "terminal-relative edge degree"
  refuseIf (sourceDegree > maxSourceDegree) (.boundaryDegreeOutOfRange sourceDegree maxSourceDegree)
  let component ← orRefuse (pair.components.find? fun component => component.id = componentId)
    (.phaseComponentBindingLost phase componentId)
  let cells := component.support.cells.keys
  let componentVisits ←
    algebra (machine.checkedExtent (cells.length * 2) "terminal-relative component visits")
  refuseIf (componentVisits > budget.maxComponentVisits)
    (.componentVisitBudgetExceeded componentVisits budget.maxComponentVisits)
  let incidenceVisits := pair.complex.incidences.length
  refuseIf (incidenceVisits > budget.maxIncidenceVisits)
    (.incidenceVisitBudgetExceeded incidenceVisits budget.maxIncidenceVisits)
  let planned ← algebra (machine.checkedCount (componentVisits + incidenceVisits)
    "terminal-relative boundary extraction")
  pollPairBoundary checkpoint planned "terminal-relative boundary preflight" 0
  let count ← cells.foldlM (countBasisCell machine pair sourceDegree checkpoint planned) ⟨0, 0, 0⟩
  preflightBoundaryOutput machine count.targetCount count.sourceCount budget
  algebra (machine.reserveExact "terminal-relative source basis" count.sourceCount)
  algebra (machine.reserveExact "terminal-relative target basis" count.targetCount)
  let bases ← cells.foldlM (materializeBasisCell machine pair sourceDegree checkpoint planned)
    ⟨count.completed, [], []⟩
  let matrixEntries ← algebra (machine.checkedExtent (count.targetCount * count.sourceCount)
    "terminal-relative boundary entries")
  algebra (machine.reserveExact "terminal-relative boundary matrix" matrixEntries)
  let projected ← pair.complex.incidences.foldlM
    (projectIncidence machine checkpoint planned bases.targetBasis bases.sourceBasis)
    (ExactIntegerMatrix.zeroed count.targetCount count.sourceCount, bases.completed)
  pollPairBoundary checkpoint planned "terminal-relative boundary finalize" projected.2
  pure {
    pair := pair.identity
    phase := phase
    component := componentId
    sourceDegree := sourceDegree
    targetDegree := degreeBelow sourceDegree
    sourceBasis := bases.sourceBasis
    targetBasis := bases.targetBasis
    matrix := projected.1
    workItems := projected.2 }

end FrankenSim.Relative
