import FrankenSim.Relative.Extraction

/-!
# Transport of an incoming boundary into kernel coordinates

Two adjacent boundaries and a verified Smith form of the outgoing one are bound to
each other. The incoming boundary is multiplied by the inverse of the right transform,
its first rows must vanish, and the remaining rows are retained.
-/
namespace FrankenSim.Relative

open Library Library.Polled Smith

structure KernelCoordinateBudget where
  maxExtent : ℕ
  maxOutputEntries : ℕ
  maxRetainedEntries : ℕ
  maxBindingItems : ℕ
  maxScalarOperations : ℕ

structure VerifiedTerminalRelativeKernelTransport where
  outgoing : TerminalRelativeBoundaryMatrix
  incoming : TerminalRelativeBoundaryMatrix
  outgoingSmith : VerifiedSmithNormalForm
  kernelImage : ExactIntegerMatrix
  bindingItems : ℕ
  scalarOperations : ℕ

def preflightAdjacentBoundaryBindings (outgoing incoming : TerminalRelativeBoundaryMatrix) :
    Polled RelativeError Unit := do
  refuseIf (outgoing.pair ≠ incoming.pair) (.adjacentBoundaryBindingMismatch "pair identity")
  refuseIf (outgoing.phase ≠ incoming.phase) (.adjacentBoundaryBindingMismatch "phase identity")
  refuseIf (outgoing.component ≠ incoming.component)
    (.adjacentBoundaryBindingMismatch "component identity")
  let expectedIncoming ← checkedDegree (outgoing.sourceDegree + 1) "adjacent boundary degree"
  refuseIf (incoming.sourceDegree ≠ expectedIncoming ∨
      incoming.targetDegree ≠ some outgoing.sourceDegree)
    (.adjacentBoundaryDegreeMismatch outgoing.sourceDegree incoming.sourceDegree
      incoming.targetDegree)
  refuseIf (outgoing.targetDegree ≠ degreeBelow outgoing.sourceDegree)
    (.kernelCoordinateInvariantLost "outgoing target degree")
  let index := min outgoing.sourceBasis.length incoming.targetBasis.length
  refuseIf (outgoing.sourceBasis.length ≠ incoming.targetBasis.length)
    (.adjacentBoundaryBasisMismatch index outgoing.sourceBasis[index]? incoming.targetBasis[index]?)

def preflightBoundaryInternalShape (boundary : TerminalRelativeBoundaryMatrix) (field : String) :
    Polled RelativeError Unit :=
  refuseIf (boundary.matrix.rows ≠ boundary.targetBasis.length ∨
      boundary.matrix.cols ≠ boundary.sourceBasis.length)
    (.kernelCoordinateInvariantLost field)

/-- An overflow of an inner product is one of the incoming kernel coordinates. -/
def atKernelCoordinate : IntegralTopologyError → RelativeError
  | .arithmeticOverflow _ row col term => .kernelCoordinateArithmeticOverflow row col term
  | error => .algebra error

section Transport

variable (machine : Machine) (checkpoint : Checkpoint) (bindingItems scalarOperations : ℕ)

def plannedKernelScalarOperations (chainExtent incomingCols : ℕ) : Polled RelativeError ℕ :=
  algebra (machine.checkedProduct "kernel-coordinate scalar operations" chainExtent
    [chainExtent, incomingCols])

def retainedKernelTransportEntries (outgoing incoming : TerminalRelativeBoundaryMatrix)
    (smith : VerifiedSmithNormalForm) (outputEntries : ℕ) : Polled RelativeError ℕ :=
  algebra (machine.checkedTotal "kernel-coordinate retained entries"
    outgoing.matrix.entries.length
    [outgoing.sourceBasis.length, outgoing.targetBasis.length, incoming.matrix.entries.length,
      incoming.sourceBasis.length, incoming.targetBasis.length, smith.source.entries.length,
      smith.witness.diagonal.entries.length, smith.witness.left.entries.length,
      smith.witness.leftInverse.entries.length, smith.witness.right.entries.length,
      smith.witness.rightInverse.entries.length, smith.invariantFactors.length, outputEntries])

def pollKernelTransport (phase : String) (completedBinding completedScalar : ℕ) :
    Polled RelativeError Unit :=
  poll checkpoint phase (.kernelCoordinateCancelled phase completedBinding bindingItems
    completedScalar scalarOperations)

/-- Compare the shared basis cell by cell. -/
def bindSharedBasis (outgoing incoming : TerminalRelativeBoundaryMatrix) :
    Polled RelativeError ℕ :=
  ((outgoing.sourceBasis.zip incoming.targetBasis).zipIdx).foldlM (fun completed entry => do
    pollKernelTransport checkpoint bindingItems scalarOperations "kernel-coordinate shared basis"
      completed 0
    refuseIf (entry.1.1 ≠ entry.1.2)
      (.adjacentBoundaryBasisMismatch entry.2 (some entry.1.1) (some entry.1.2))
    pure (completed + 1)) 0

/-- Compare the outgoing matrix with the source of its Smith form entry by entry. -/
def bindSmithSource (outgoing : ExactIntegerMatrix) (smith : VerifiedSmithNormalForm)
    (completedBinding : ℕ) : Polled RelativeError ℕ :=
  ((outgoing.entries.zip smith.source.entries).zipIdx).foldlM (fun completed entry => do
    pollKernelTransport checkpoint bindingItems scalarOperations
      "kernel-coordinate Smith source binding" completed 0
    refuseIf (entry.1.1 ≠ entry.1.2)
      (.outgoingSmithSourceEntryMismatch (entry.2 / max outgoing.cols 1)
        (entry.2 % max outgoing.cols 1) entry.1.1 entry.1.2)
    pure (completed + 1)) completedBinding

/-- One coordinate of the incoming boundary, refused when it should vanish and retained
when it lies in the kernel. -/
def transportCoordinate (incoming : ExactIntegerMatrix) (smith : VerifiedSmithNormalForm)
    (completedBinding row : ℕ) (state : ExactIntegerMatrix × ℕ) (col : ℕ) :
    Polled RelativeError (ExactIntegerMatrix × ℕ) := do
  pollKernelTransport checkpoint bindingItems scalarOperations
    "kernel-coordinate incoming transform" completedBinding state.2
  let (coordinate, completedScalar) ← unpolled
    ((machine.checkedDot smith.witness.rightInverse row incoming col .rightInverseTimesTransform
      state.2).mapError atKernelCoordinate)
  if row < smith.rank then
    refuseIf (coordinate ≠ 0)
      (.incomingImageOutsideKernel row col coordinate (smith.invariantFactors.getD row 0))
    pure (state.1, completedScalar)
  else
    pure (state.1.setEntry (row - smith.rank) col coordinate, completedScalar)

end Transport

/-- The incoming boundary in the kernel coordinates of the outgoing Smith form. -/
def verifyTerminalRelativeKernelTransportWithCheckpoint (machine : Machine)
    (outgoing incoming : TerminalRelativeBoundaryMatrix) (outgoingSmith : VerifiedSmithNormalForm)
    (budget : KernelCoordinateBudget) (checkpoint : Checkpoint) :
    Polled RelativeError VerifiedTerminalRelativeKernelTransport := do
  preflightAdjacentBoundaryBindings outgoing incoming
  preflightBoundaryInternalShape outgoing "outgoing boundary"
  preflightBoundaryInternalShape incoming "incoming boundary"
  let rows := outgoing.matrix.rows
  let chainExtent := outgoing.matrix.cols
  let incomingCols := incoming.matrix.cols
  refuseIf (incoming.matrix.rows ≠ chainExtent)
    (.kernelCoordinateInvariantLost "adjacent matrix inner extent")
  refuseIf (outgoingSmith.source.rows ≠ rows ∨ outgoingSmith.source.cols ≠ chainExtent)
    (.outgoingSmithSourceShapeMismatch rows chainExtent outgoingSmith.source.rows
      outgoingSmith.source.cols)
  refuseIf (outgoingSmith.rank > chainExtent)
    (.kernelCoordinateInvariantLost "outgoing Smith rank exceeds chain extent")
  refuseIf (rows > budget.maxExtent ∨ chainExtent > budget.maxExtent ∨
      incomingCols > budget.maxExtent)
    (.kernelCoordinateExtentExceeded rows chainExtent incomingCols budget.maxExtent)
  let kernelRows := chainExtent - outgoingSmith.rank
  let outputEntries ←
    algebra (machine.checkedExtent (kernelRows * incomingCols) "kernel-coordinate output entries")
  refuseIf (outputEntries > budget.maxOutputEntries)
    (.algebra (.matrixEntryBudgetExceeded outputEntries budget.maxOutputEntries))
  let bindingItems ← algebra (machine.checkedExtent
    (outgoing.sourceBasis.length + outgoing.matrix.entries.length)
    "kernel-coordinate binding items")
  refuseIf (bindingItems > budget.maxBindingItems)
    (.kernelBindingBudgetExceeded bindingItems budget.maxBindingItems)
  let scalarOperations ← plannedKernelScalarOperations machine chainExtent incomingCols
  refuseIf (scalarOperations > budget.maxScalarOperations)
    (.algebra (.scalarWorkBudgetExceeded scalarOperations budget.maxScalarOperations))
  let retainedEntries ←
    retainedKernelTransportEntries machine outgoing incoming outgoingSmith outputEntries
  refuseIf (retainedEntries > budget.maxRetainedEntries)
    (.algebra (.retainedEntryBudgetExceeded retainedEntries budget.maxRetainedEntries))
  pollKernelTransport checkpoint bindingItems scalarOperations "kernel-coordinate preflight" 0 0
  let completedBinding ←
    bindSharedBasis checkpoint bindingItems scalarOperations outgoing incoming
  let completedBinding ← bindSmithSource checkpoint bindingItems scalarOperations outgoing.matrix
    outgoingSmith completedBinding
  pollKernelTransport checkpoint bindingItems scalarOperations
    "kernel-coordinate output allocation" completedBinding 0
  algebra (machine.reserveExact "kernel-coordinate incoming image" outputEntries)
  let transported ← (List.range chainExtent).foldlM (fun state row =>
    (List.range incomingCols).foldlM (transportCoordinate machine checkpoint bindingItems
      scalarOperations incoming.matrix outgoingSmith completedBinding row) state)
    (ExactIntegerMatrix.zeroed kernelRows incomingCols, 0)
  pollKernelTransport checkpoint bindingItems scalarOperations "kernel-coordinate finalize"
    completedBinding transported.2
  pure {
    outgoing := outgoing
    incoming := incoming
    outgoingSmith := outgoingSmith
    kernelImage := transported.1
    bindingItems := completedBinding
    scalarOperations := transported.2 }

end FrankenSim.Relative
