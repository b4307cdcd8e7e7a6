import FrankenSim.Smith.Verification

/-!
# Construction of Smith normal forms

The reduction works on a copy of the source with both transforms and their inverses.
At each pivot it clears the column below and the row to the right by Euclidean
division, and mixes in a row whose entry the pivot does not divide. The inner loop
runs on fuel; a run that ends does not depend on it.
-/
namespace FrankenSim.Smith

open Library

structure SmithConstructionState where
  diagonal : ExactIntegerMatrix
  left : ExactIntegerMatrix
  leftInverse : ExactIntegerMatrix
  right : ExactIntegerMatrix
  rightInverse : ExactIntegerMatrix
  elementaryOperations : ℕ
  entrySteps : ℕ
  budget : SmithConstructionBudget

structure ConstructedSmithNormalForm where
  verified : VerifiedSmithNormalForm
  elementaryOperations : ℕ
  entrySteps : ℕ

namespace ExactIntegerMatrix

/-- Recompute a row from left to right. -/
def updateRow (self : ExactIntegerMatrix) (row : ℕ)
    (compute : ExactIntegerMatrix → ℕ → Except IntegralTopologyError ℤ) :
    Except IntegralTopologyError ExactIntegerMatrix :=
  (List.range self.cols).foldlM (fun matrix col => do
    let value ← compute matrix col
    pure (matrix.setEntry row col value)) self

/-- Recompute a column from top to bottom. -/
def updateColumn (self : ExactIntegerMatrix) (col : ℕ)
    (compute : ExactIntegerMatrix → ℕ → Except IntegralTopologyError ℤ) :
    Except IntegralTopologyError ExactIntegerMatrix :=
  (List.range self.rows).foldlM (fun matrix row => do
    let value ← compute matrix row
    pure (matrix.setEntry row col value)) self

/-- Exchange two entries. -/
def swapEntries (self : ExactIntegerMatrix) (row col row' col' : ℕ) : ExactIntegerMatrix :=
  (self.setEntry row col (self.entry row' col')).setEntry row' col' (self.entry row col)

def swapMatrixRows (self : ExactIntegerMatrix) (first second : ℕ) : ExactIntegerMatrix :=
  (List.range self.cols).foldl (fun matrix col => matrix.swapEntries first col second col) self

def swapMatrixColumns (self : ExactIntegerMatrix) (first second : ℕ) : ExactIntegerMatrix :=
  (List.range self.rows).foldl (fun matrix row => matrix.swapEntries row first row second) self

end ExactIntegerMatrix

namespace Machine

variable (machine : Machine)

def checkedConstructionCoefficient (value : ℤ) (maxAbsCoefficient : ℕ∞) (role : MatrixRole)
    (row col : ℕ) : Except IntegralTopologyError ℤ := do
  refuseIf ((value.natAbs : ℕ∞) > maxAbsCoefficient)
    (.smithConstructionCoefficientMagnitudeExceeded role row col value.natAbs maxAbsCoefficient)
  pure value

/-- An entry changed by a multiple of another entry, with every result checked. -/
def checkedCombination (combine : ℤ → ℤ → ℤ) (target source multiplier : ℤ)
    (stage : SmithConstructionStage) (role : MatrixRole) (row col : ℕ) (maxAbsCoefficient : ℕ∞) :
    Except IntegralTopologyError ℤ := do
  let product ← machine.checkedCoefficient (source * multiplier)
    (.smithConstructionArithmeticOverflow stage role row col)
  let value ← machine.checkedCoefficient (combine target product)
    (.smithConstructionArithmeticOverflow stage role row col)
  checkedConstructionCoefficient value maxAbsCoefficient role row col

def checkedSubtractMatrixRow (matrix : ExactIntegerMatrix) (target source : ℕ) (multiplier : ℤ)
    (stage : SmithConstructionStage) (role : MatrixRole) (maxAbsCoefficient : ℕ∞) :
    Except IntegralTopologyError ExactIntegerMatrix :=
  matrix.updateRow target fun current col =>
    machine.checkedCombination (· - ·) (current.entry target col) (current.entry source col)
      multiplier stage role target col maxAbsCoefficient

def checkedAddMatrixRow (matrix : ExactIntegerMatrix) (target source : ℕ) (multiplier : ℤ)
    (stage : SmithConstructionStage) (role : MatrixRole) (maxAbsCoefficient : ℕ∞) :
    Except IntegralTopologyError ExactIntegerMatrix :=
  matrix.updateRow target fun current col =>
    machine.checkedCombination (· + ·) (current.entry target col) (current.entry source col)
      multiplier stage role target col maxAbsCoefficient

def checkedSubtractMatrixColumn (matrix : ExactIntegerMatrix) (target source : ℕ) (multiplier : ℤ)
    (stage : SmithConstructionStage) (role : MatrixRole) (maxAbsCoefficient : ℕ∞) :
    Except IntegralTopologyError ExactIntegerMatrix :=
  matrix.updateColumn target fun current row =>
    machine.checkedCombination (· - ·) (current.entry row target) (current.entry row source)
      multiplier stage role row target maxAbsCoefficient

def checkedAddMatrixColumn (matrix : ExactIntegerMatrix) (target source : ℕ) (multiplier : ℤ)
    (stage : SmithConstructionStage) (role : MatrixRole) (maxAbsCoefficient : ℕ∞) :
    Except IntegralTopologyError ExactIntegerMatrix :=
  matrix.updateColumn target fun current row =>
    machine.checkedCombination (· + ·) (current.entry row target) (current.entry row source)
      multiplier stage role row target maxAbsCoefficient

def checkedNegation (value : ℤ) (stage : SmithConstructionStage) (role : MatrixRole)
    (row col : ℕ) (maxAbsCoefficient : ℕ∞) : Except IntegralTopologyError ℤ := do
  let value ← machine.checkedCoefficient (-value)
    (.smithConstructionArithmeticOverflow stage role row col)
  checkedConstructionCoefficient value maxAbsCoefficient role row col

def checkedNegateMatrixRow (matrix : ExactIntegerMatrix) (row : ℕ)
    (stage : SmithConstructionStage) (role : MatrixRole) (maxAbsCoefficient : ℕ∞) :
    Except IntegralTopologyError ExactIntegerMatrix :=
  matrix.updateRow row fun current col =>
    machine.checkedNegation (current.entry row col) stage role row col maxAbsCoefficient

def checkedNegateMatrixColumn (matrix : ExactIntegerMatrix) (col : ℕ)
    (stage : SmithConstructionStage) (role : MatrixRole) (maxAbsCoefficient : ℕ∞) :
    Except IntegralTopologyError ExactIntegerMatrix :=
  matrix.updateColumn col fun current row =>
    machine.checkedNegation (current.entry row col) stage role row col maxAbsCoefficient

/-- Euclidean quotient, refused by a zero divisor or an overflow. -/
def checkedDivEuclid (value divisor : ℤ) (error : IntegralTopologyError) :
    Except IntegralTopologyError ℤ :=
  if divisor = 0 then .error error else machine.checkedCoefficient (value / divisor) error

/-- Euclidean remainder, refused where the quotient is. -/
def checkedRemEuclid (value divisor : ℤ) (error : IntegralTopologyError) :
    Except IntegralTopologyError ℤ := do
  let _ ← machine.checkedDivEuclid value divisor error
  pure (value % divisor)

end Machine

namespace SmithConstructionState

variable (machine : Machine)

def reserveScanSteps (self : SmithConstructionState) (steps : ℕ) :
    Except IntegralTopologyError SmithConstructionState := do
  let steps ← machine.checkedCount steps "smith construction scan step conversion"
  let requested ← machine.checkedCount (self.entrySteps + steps) "smith construction scan steps"
  refuseIf ((requested : ℕ∞) > self.budget.maxEntrySteps)
    (.smithConstructionEntryStepBudgetExceeded requested self.budget.maxEntrySteps)
  pure { self with entrySteps := requested }

def beginOperation (self : SmithConstructionState) (steps : ℕ) :
    Except IntegralTopologyError SmithConstructionState := do
  let requestedOperations ← machine.checkedCount (self.elementaryOperations + 1)
    "smith construction operation count"
  refuseIf ((requestedOperations : ℕ∞) > self.budget.maxElementaryOperations)
    (.smithConstructionOperationBudgetExceeded requestedOperations
      self.budget.maxElementaryOperations)
  let steps ← machine.checkedCount steps "smith construction update step conversion"
  let requestedSteps ← machine.checkedCount (self.entrySteps + steps)
    "smith construction update steps"
  refuseIf ((requestedSteps : ℕ∞) > self.budget.maxEntrySteps)
    (.smithConstructionEntryStepBudgetExceeded requestedSteps self.budget.maxEntrySteps)
  pure {
    self with
    elementaryOperations := requestedOperations
    entrySteps := requestedSteps }

def inspect (self : SmithConstructionState) (row col : ℕ) :
    Except IntegralTopologyError (ℤ × SmithConstructionState) := do
  let self ← self.reserveScanSteps machine 1
  pure (self.diagonal.entry row col, self)

def swapRows (self : SmithConstructionState) (first second : ℕ) :
    Except IntegralTopologyError SmithConstructionState := do
  let count ← machine.checkedTotal "smith construction row swap steps" self.diagonal.cols
    [self.left.cols, self.leftInverse.rows]
  let steps ← machine.checkedExtent (count * 2) "smith construction row swap steps"
  let self ← self.beginOperation machine steps
  pure {
    self with
    diagonal := self.diagonal.swapMatrixRows first second
    left := self.left.swapMatrixRows first second
    leftInverse := self.leftInverse.swapMatrixColumns first second }

def swapColumns (self : SmithConstructionState) (first second : ℕ) :
    Except IntegralTopologyError SmithConstructionState := do
  let count ← machine.checkedTotal "smith construction column swap steps" self.diagonal.rows
    [self.right.rows, self.rightInverse.cols]
  let steps ← machine.checkedExtent (count * 2) "smith construction column swap steps"
  let self ← self.beginOperation machine steps
  pure {
    self with
    diagonal := self.diagonal.swapMatrixColumns first second
    right := self.right.swapMatrixColumns first second
    rightInverse := self.rightInverse.swapMatrixRows first second }

def subtractRowMultiple (self : SmithConstructionState) (target source : ℕ) (quotient : ℤ) :
    Except IntegralTopologyError SmithConstructionState := do
  let steps ← machine.checkedTotal "smith construction row reduction steps" self.diagonal.cols
    [self.left.cols, self.leftInverse.rows]
  let self ← self.beginOperation machine steps
  let diagonal ← machine.checkedSubtractMatrixRow self.diagonal target source quotient
    .rowReduction .diagonal self.budget.maxAbsCoefficient
  let left ← machine.checkedSubtractMatrixRow self.left target source quotient
    .rowReduction .leftTransform self.budget.maxAbsCoefficient
  let leftInverse ← machine.checkedAddMatrixColumn self.leftInverse source target quotient
    .rowReduction .leftInverse self.budget.maxAbsCoefficient
  pure { self with diagonal := diagonal, left := left, leftInverse := leftInverse }

def subtractColumnMultiple (self : SmithConstructionState) (target source : ℕ) (quotient : ℤ)
    (stage : SmithConstructionStage) (phase : String) :
    Except IntegralTopologyError SmithConstructionState := do
  let steps ← machine.checkedTotal phase self.diagonal.rows
    [self.right.rows, self.rightInverse.cols]
  let self ← self.beginOperation machine steps
  let diagonal ← machine.checkedSubtractMatrixColumn self.diagonal target source quotient
    stage .diagonal self.budget.maxAbsCoefficient
  let right ← machine.checkedSubtractMatrixColumn self.right target source quotient
    stage .rightTransform self.budget.maxAbsCoefficient
  let rightInverse ← machine.checkedAddMatrixRow self.rightInverse source target quotient
    stage .rightInverse self.budget.maxAbsCoefficient
  pure { self with diagonal := diagonal, right := right, rightInverse := rightInverse }

def addRowForDivisibilityRepair (self : SmithConstructionState) (target source : ℕ) :
    Except IntegralTopologyError SmithConstructionState := do
  let steps ← machine.checkedTotal "smith construction divisibility repair steps"
    self.diagonal.cols [self.left.cols, self.leftInverse.rows]
  let self ← self.beginOperation machine steps
  let diagonal ← machine.checkedAddMatrixRow self.diagonal target source 1
    .divisibilityRepair .diagonal self.budget.maxAbsCoefficient
  let left ← machine.checkedAddMatrixRow self.left target source 1
    .divisibilityRepair .leftTransform self.budget.maxAbsCoefficient
  let leftInverse ← machine.checkedSubtractMatrixColumn self.leftInverse source target 1
    .divisibilityRepair .leftInverse self.budget.maxAbsCoefficient
  pure { self with diagonal := diagonal, left := left, leftInverse := leftInverse }

def normalizePivotSign (self : SmithConstructionState) (pivot : ℕ) :
    Except IntegralTopologyError SmithConstructionState := do
  let steps ← machine.checkedTotal "smith construction sign steps" self.diagonal.cols
    [self.left.cols, self.leftInverse.rows]
  let self ← self.beginOperation machine steps
  let diagonal ← machine.checkedNegateMatrixRow self.diagonal pivot
    .signNormalization .diagonal self.budget.maxAbsCoefficient
  let left ← machine.checkedNegateMatrixRow self.left pivot
    .signNormalization .leftTransform self.budget.maxAbsCoefficient
  let leftInverse ← machine.checkedNegateMatrixColumn self.leftInverse pivot
    .signNormalization .leftInverse self.budget.maxAbsCoefficient
  pure { self with diagonal := diagonal, left := left, leftInverse := leftInverse }

/-- The numbers from one bound up to another. -/
def span (first last : ℕ) : List ℕ := List.range' first (last - first)

/-- The places of the block from an offset on, row by row. -/
def places (offset rows cols : ℕ) : List (ℕ × ℕ) :=
  (span offset rows).flatMap fun row => (span offset cols).map fun col => (row, col)

/-- A smaller magnitude, then an earlier row, then an earlier column. -/
def earlier (candidate current : ℕ × ℕ × ℕ) : Bool :=
  decide (candidate.1 < current.1 ∨ candidate.1 = current.1 ∧
    (candidate.2.1 < current.2.1 ∨ candidate.2.1 = current.2.1 ∧ candidate.2.2 < current.2.2))

def scanPivot : List (ℕ × ℕ) → Option (ℕ × ℕ × ℕ) → SmithConstructionState →
    Except IntegralTopologyError (Option (ℕ × ℕ × ℕ) × SmithConstructionState)
  | [], best, self => pure (best, self)
  | (row, col) :: rest, best, self => do
    let (value, self) ← self.inspect machine row col
    if value = 0 then scanPivot rest best self
    else
      let candidate := (value.natAbs, row, col)
      if best.all fun current => earlier candidate current then scanPivot rest (some candidate) self
      else scanPivot rest best self

def findPivot (self : SmithConstructionState) (offset : ℕ) :
    Except IntegralTopologyError (Option (ℕ × ℕ) × SmithConstructionState) := do
  let (best, self) ← scanPivot machine (places offset self.diagonal.rows self.diagonal.cols) none self
  pure (best.map fun candidate => candidate.2, self)

def scanNondivisible (divisor : ℤ) : List (ℕ × ℕ) → SmithConstructionState →
    Except IntegralTopologyError (Option (ℕ × ℕ) × SmithConstructionState)
  | [], self => pure (none, self)
  | (row, col) :: rest, self => do
    let (value, self) ← self.inspect machine row col
    let remainder ← machine.checkedRemEuclid value divisor
      (.smithConstructionArithmeticOverflow .divisibilityRepair .diagonal row col)
    if remainder ≠ 0 then pure (some (row, col), self)
    else scanNondivisible divisor rest self

def findNondivisible (self : SmithConstructionState) (pivot : ℕ) (divisor : ℤ) :
    Except IntegralTopologyError (Option (ℕ × ℕ) × SmithConstructionState) :=
  scanNondivisible machine divisor (places (pivot + 1) self.diagonal.rows self.diagonal.cols) self

/-- Divide an entry below the pivot and exchange the rows when a remainder is left. -/
def clearBelow (self : SmithConstructionState) (pivot row : ℕ) (entry : ℤ) :
    Except IntegralTopologyError SmithConstructionState := do
  let (pivotValue, self) ← self.inspect machine pivot pivot
  refuseIf (pivotValue ≤ 0)
    (.smithConstructionInvariantLost "row reduction pivot is not positive")
  let quotient ← machine.checkedDivEuclid entry pivotValue
    (.smithConstructionArithmeticOverflow .rowReduction .diagonal row pivot)
  let self ← self.subtractRowMultiple machine row pivot quotient
  let (remainder, self) ← self.inspect machine row pivot
  if remainder ≠ 0 then do
    refuseIf (remainder.natAbs ≥ pivotValue.natAbs)
      (.smithConstructionInvariantLost "row Euclidean remainder did not reduce pivot")
    self.swapRows machine pivot row
  else pure self

/-- Divide an entry right of the pivot and exchange the columns when a remainder is left. -/
def clearRight (self : SmithConstructionState) (pivot col : ℕ) (entry : ℤ) :
    Except IntegralTopologyError SmithConstructionState := do
  let (pivotValue, self) ← self.inspect machine pivot pivot
  refuseIf (pivotValue ≤ 0)
    (.smithConstructionInvariantLost "column reduction pivot is not positive")
  let quotient ← machine.checkedDivEuclid entry pivotValue
    (.smithConstructionArithmeticOverflow .columnReduction .diagonal pivot col)
  let self ← self.subtractColumnMultiple machine col pivot quotient .columnReduction
    "smith construction column reduction"
  let (remainder, self) ← self.inspect machine pivot col
  if remainder ≠ 0 then do
    refuseIf (remainder.natAbs ≥ pivotValue.natAbs)
      (.smithConstructionInvariantLost "column Euclidean remainder did not reduce pivot")
    self.swapColumns machine pivot col
  else pure self

/-- Clear the first non-zero entry below the pivot; the flag asks for a restart. -/
def reduceColumn (pivot : ℕ) : List ℕ → SmithConstructionState →
    Except IntegralTopologyError (Bool × SmithConstructionState)
  | [], self => pure (false, self)
  | row :: rest, self => do
    let (entry, self) ← self.inspect machine row pivot
    if entry = 0 then reduceColumn pivot rest self
    else do
      let self ← self.clearBelow machine pivot row entry
      pure (true, self)

def reduceRow (pivot : ℕ) : List ℕ → SmithConstructionState →
    Except IntegralTopologyError (Bool × SmithConstructionState)
  | [], self => pure (false, self)
  | col :: rest, self => do
    let (entry, self) ← self.inspect machine pivot col
    if entry = 0 then reduceRow pivot rest self
    else do
      let self ← self.clearRight machine pivot col entry
      pure (true, self)

/-- Mix in a row with an entry that the pivot does not divide. -/
def repairDivisibility (self : SmithConstructionState) (pivot row col : ℕ) (pivotValue : ℤ) :
    Except IntegralTopologyError SmithConstructionState := do
  let self ← self.addRowForDivisibilityRepair machine pivot row
  let (repairEntry, self) ← self.inspect machine pivot col
  let quotient ← machine.checkedDivEuclid repairEntry pivotValue
    (.smithConstructionArithmeticOverflow .divisibilityRepair .diagonal pivot col)
  let self ← self.subtractColumnMultiple machine col pivot quotient .divisibilityRepair
    "smith construction divisibility repair column reduction"
  let (remainder, self) ← self.inspect machine pivot col
  refuseIf (remainder = 0 ∨ remainder.natAbs ≥ pivotValue.natAbs)
    (.smithConstructionInvariantLost "divisibility repair did not strictly reduce pivot")
  self.swapColumns machine pivot col

/-- One pass of the inner loop; the flag is false when it leaves the loop. -/
def reduceOnce (self : SmithConstructionState) (pivot : ℕ) :
    Except IntegralTopologyError (Bool × SmithConstructionState) := do
  let (restart, self) ← reduceColumn machine pivot (span (pivot + 1) self.diagonal.rows) self
  if restart then pure (true, self)
  else do
    let (restart, self) ← reduceRow machine pivot (span (pivot + 1) self.diagonal.cols) self
    if restart then pure (true, self)
    else do
      let (pivotValue, self) ← self.inspect machine pivot pivot
      refuseIf (pivotValue ≤ 0)
        (.smithConstructionInvariantLost "divisibility pivot is not positive")
      let (repair, self) ← self.findNondivisible machine pivot pivotValue
      match repair with
      | none => pure (false, self)
      | some (row, col) => do
        let self ← self.repairDivisibility machine pivot row col pivotValue
        pure (true, self)

/-- The inner loop at a pivot; no answer means that the fuel ran out. -/
def reducePivot (pivot : ℕ) : ℕ → SmithConstructionState →
    Option (Except IntegralTopologyError SmithConstructionState)
  | 0, _ => none
  | fuel + 1, self =>
    match self.reduceOnce machine pivot with
    | .error error => some (.error error)
    | .ok (true, self) => reducePivot pivot fuel self
    | .ok (false, self) => some (.ok self)

/-- Bring a smallest entry of the remaining block to the pivot and make it positive. -/
def preparePivot (self : SmithConstructionState) (pivot : ℕ) :
    Except IntegralTopologyError (Bool × SmithConstructionState) := do
  let (found, self) ← self.findPivot machine pivot
  match found with
  | none => pure (false, self)
  | some (pivotRow, pivotCol) => do
    let self ← (if pivotRow ≠ pivot then self.swapRows machine pivot pivotRow else pure self)
    let self ← (if pivotCol ≠ pivot then self.swapColumns machine pivot pivotCol else pure self)
    let (sign, self) ← self.inspect machine pivot pivot
    let self ← (if sign < 0 then self.normalizePivotSign machine pivot else pure self)
    pure (true, self)

/-- The loop over the pivots, left when the remaining block is zero. -/
def reducePivots (fuel : ℕ) : List ℕ → SmithConstructionState →
    Option (Except IntegralTopologyError SmithConstructionState)
  | [], self => some (.ok self)
  | pivot :: rest, self =>
    match self.preparePivot machine pivot with
    | .error error => some (.error error)
    | .ok (false, self) => some (.ok self)
    | .ok (true, self) =>
      match reducePivot machine pivot fuel self with
      | none => none
      | some (.error error) => some (.error error)
      | some (.ok self) => reducePivots fuel rest self

end SmithConstructionState

namespace Machine

variable (machine : Machine)

def preflightSmithConstruction (source : ExactIntegerMatrix)
    (constructionBudget : SmithConstructionBudget) (verificationBudget : ExactAlgebraBudget) :
    Except IntegralTopologyError ℕ := do
  source.ensureWithin .source verificationBudget
  refuseIf ((source.rows > 0 ∨ source.cols > 0) ∧ constructionBudget.maxAbsCoefficient < 1)
    (.smithConstructionCoefficientMagnitudeExceeded
      (if source.rows > 0 then .leftTransform else .rightTransform) 0 0 1
      constructionBudget.maxAbsCoefficient)
  let initialEntrySteps ← (List.range source.entries.length).foldlM (fun steps index => do
    let requested ← machine.checkedCount (steps + 1) "smith construction source coefficient scan"
    refuseIf ((requested : ℕ∞) > constructionBudget.maxEntrySteps)
      (.smithConstructionEntryStepBudgetExceeded requested constructionBudget.maxEntrySteps)
    let magnitude := (source.entries.getD index 0).natAbs
    refuseIf ((magnitude : ℕ∞) > constructionBudget.maxAbsCoefficient)
      (.smithConstructionCoefficientMagnitudeExceeded .source (index / max source.cols 1)
        (index % max source.cols 1) magnitude constructionBudget.maxAbsCoefficient)
    pure requested) 0
  let rowsSquared ← machine.checkedExtent (source.rows * source.rows)
    "smith construction left entries"
  let colsSquared ← machine.checkedExtent (source.cols * source.cols)
    "smith construction right entries"
  let limit := verificationBudget.maxMatrixEntries
  refuseIf ((source.entries.length : ℕ∞) > limit)
    (.matrixEntryBudgetExceeded source.entries.length limit)
  refuseIf ((rowsSquared : ℕ∞) > limit) (.matrixEntryBudgetExceeded rowsSquared limit)
  refuseIf ((colsSquared : ℕ∞) > limit) (.matrixEntryBudgetExceeded colsSquared limit)
  let sourceTwice ← machine.checkedExtent (source.entries.length * 2)
    "smith construction live entries"
  let leftTwice ← machine.checkedExtent (rowsSquared * 2) "smith construction live entries"
  let withLeft ← machine.checkedExtent (sourceTwice + leftTwice) "smith construction live entries"
  let rightTwice ← machine.checkedExtent (colsSquared * 2) "smith construction live entries"
  let liveEntries ← machine.checkedExtent (withLeft + rightTwice) "smith construction live entries"
  refuseIf ((liveEntries : ℕ∞) > constructionBudget.maxLiveEntries)
    (.smithConstructionLiveEntryBudgetExceeded liveEntries constructionBudget.maxLiveEntries)
  refuseIf ((liveEntries : ℕ∞) > verificationBudget.maxRetainedEntries)
    (.retainedEntryBudgetExceeded liveEntries verificationBudget.maxRetainedEntries)
  refuseIf ((source.entries.length : ℕ∞) > verificationBudget.maxWorkspaceEntries)
    (.workspaceEntryBudgetExceeded source.entries.length verificationBudget.maxWorkspaceEntries)
  pure initialEntrySteps

def tryCloneMatrix (matrix : ExactIntegerMatrix) (phase : String) :
    Except IntegralTopologyError ExactIntegerMatrix := do
  machine.reserveExact phase matrix.entries.length
  pure matrix

def tryIdentityMatrix (extent : ℕ) (phase : String) :
    Except IntegralTopologyError ExactIntegerMatrix := do
  let entries ← machine.checkedExtent (extent * extent) phase
  machine.reserveExact phase entries
  pure ((List.range extent).foldl (fun matrix index => matrix.setEntry index index 1)
    (.zeroed extent extent))

/-- The state before the first pivot. -/
def beginConstruction (source : ExactIntegerMatrix) (constructionBudget : SmithConstructionBudget)
    (verificationBudget : ExactAlgebraBudget) :
    Except IntegralTopologyError SmithConstructionState := do
  let initialEntrySteps ← machine.preflightSmithConstruction source constructionBudget
    verificationBudget
  let diagonal ← machine.tryCloneMatrix source "smith construction source clone"
  let left ← machine.tryIdentityMatrix source.rows "smith construction left identity"
  let leftInverse ← machine.tryIdentityMatrix source.rows
    "smith construction left inverse identity"
  let right ← machine.tryIdentityMatrix source.cols "smith construction right identity"
  let rightInverse ← machine.tryIdentityMatrix source.cols
    "smith construction right inverse identity"
  pure ⟨diagonal, left, leftInverse, right, rightInverse, 0, initialEntrySteps,
    constructionBudget⟩

/-- The final check of the reduced state. -/
def finishConstruction (source : ExactIntegerMatrix) (verificationBudget : ExactAlgebraBudget)
    (state : SmithConstructionState) :
    Except IntegralTopologyError ConstructedSmithNormalForm :=
  let witness : SmithNormalFormWitness :=
    ⟨state.diagonal, state.left, state.leftInverse, state.right, state.rightInverse⟩
  match machine.verifySmithNormalForm source witness verificationBudget with
  | .ok verified => .ok ⟨verified, state.elementaryOperations, state.entrySteps⟩
  | .error error =>
    if error.failureClass = .refuted then
      .error (.smithConstructionInvariantLost "constructed witness failed independent verification")
    else .error error

/-- The construction; no answer means that the fuel ran out. -/
def constructSmithNormalForm (fuel : ℕ) (source : ExactIntegerMatrix)
    (constructionBudget : SmithConstructionBudget) (verificationBudget : ExactAlgebraBudget) :
    Option (Except IntegralTopologyError ConstructedSmithNormalForm) :=
  match machine.beginConstruction source constructionBudget verificationBudget with
  | .error error => some (.error error)
  | .ok state =>
    match SmithConstructionState.reducePivots machine fuel
        (List.range (min source.rows source.cols)) state with
    | none => none
    | some (.error error) => some (.error error)
    | some (.ok state) => some (machine.finishConstruction source verificationBudget state)

end Machine

end FrankenSim.Smith
