import FrankenSim.Library.Groups
import FrankenSim.Library.Refusals
import FrankenSim.Library.StableSort
import Mathlib.Data.Prod.Lex

/-!
# Finite cell complexes

Cells are counted by degree and referred to by degree and ordinal. A list of signed
incidences is admitted after checks of ranges, degrees and duplicates, and after its
boundary was found to square to zero. Subcomplexes hold the faces of their cells.
-/
namespace FrankenSim.Relative

open Library

def maxTerminalRelativeDimension : ℕ := 3

def maxTerminalRelativeCells : ℕ := 131072

def maxTerminalRelativeIncidences : ℕ := 1048576

/-- An oriented cell by its degree and its ordinal within the degree. -/
structure CellRef where
  degree : ℕ
  ordinal : ℕ
  deriving DecidableEq, Repr

def CellRef.key (cell : CellRef) : ℕ ×ₗ ℕ := toLex (cell.degree, cell.ordinal)

theorem CellRef.key_injective : Function.Injective CellRef.key := by
  intro a b h
  cases a
  cases b
  cases h
  rfl

/-- Cells are ordered by degree, then by ordinal. -/
instance : LinearOrder CellRef := LinearOrder.lift' CellRef.key CellRef.key_injective

inductive IncidenceSign
  | negative
  | positive
  deriving DecidableEq, Repr

def IncidenceSign.asI128 : IncidenceSign → ℤ
  | .negative => -1
  | .positive => 1

/-- `sign * lower` occurs in the boundary of `upper`. -/
structure BoundaryIncidence where
  lower : CellRef
  upper : CellRef
  sign : IncidenceSign
  deriving DecidableEq, Repr

inductive TerminalRelativeError
  | dimensionTooLarge (actual max : ℕ)
  | cellCountArity (dimension actual : ℕ)
  | cellBudgetExceeded (actual max : ℕ)
  | incidenceBudgetExceeded (actual max : ℕ)
  | cellOutOfRange (cell : CellRef)
  | invalidIncidenceDegree (lower upper : CellRef)
  | duplicateIncidence (lower upper : CellRef)
  | boundarySquaredNonzero (source target : CellRef) (value : ℤ)
  | duplicateSubcomplexCell (id : String) (cell : CellRef)
  | notASubcomplex (id : String) (cell missingBoundary : CellRef)
  deriving DecidableEq, Repr

structure FiniteCellComplex where
  dimension : ℕ
  cellCounts : List ℕ
  incidences : List BoundaryIncidence
  deriving DecidableEq

/-- The sum of the counts, refused when it leaves a word. -/
def checkedTotalCells (counts : List ℕ) : Option ℕ :=
  counts.foldlM (fun sum count => if sum + count < 2 ^ 64 then some (sum + count) else none) 0

/-- The number of cells, or a refusal of a sum beyond a word. -/
def totalCells (counts : List ℕ) : Except TerminalRelativeError ℕ :=
  match checkedTotalCells counts with
  | none => .error (.cellBudgetExceeded (2 ^ 64 - 1) maxTerminalRelativeCells)
  | some total => .ok total

def validateCellRef (cell : CellRef) (counts : List ℕ) : Except TerminalRelativeError Unit :=
  match counts[cell.degree]? with
  | none => .error (.cellOutOfRange cell)
  | some count => refuseWhen (cell.ordinal ≥ count) (.cellOutOfRange cell)

def validateIncidence (counts : List ℕ) (incidence : BoundaryIncidence) :
    Except TerminalRelativeError Unit := do
  validateCellRef incidence.lower counts
  validateCellRef incidence.upper counts
  refuseWhen (incidence.lower.degree + 1 ≠ incidence.upper.degree)
    (.invalidIncidenceDegree incidence.lower incidence.upper)

/-- The order of incidences in a complex. -/
def BoundaryIncidence.key (entry : BoundaryIncidence) : ℕ ×ₗ ℕ ×ₗ ℕ :=
  toLex (entry.upper.degree, toLex (entry.upper.ordinal, entry.lower.ordinal))

/-- Refuse neighbours between the same two cells. -/
def refuseDuplicates : List BoundaryIncidence → Except TerminalRelativeError Unit
  | first :: second :: rest =>
    if first.upper = second.upper ∧ first.lower = second.lower then
      .error (.duplicateIncidence first.lower first.upper)
    else refuseDuplicates (second :: rest)
  | _ => .ok ()

namespace FiniteCellComplex

def contains (self : FiniteCellComplex) (cell : CellRef) : Bool :=
  match self.cellCounts[cell.degree]? with
  | none => false
  | some count => decide (cell.ordinal < count)

/-- The incidences of every cell with its faces. -/
def byUpper (self : FiniteCellComplex) : SortedMap CellRef (List BoundaryIncidence) :=
  SortedMap.groupBy BoundaryIncidence.upper self.incidences

/-- The terms of the twofold boundary of a cell. -/
def contributions (self : FiniteCellComplex) (source : CellRef) : List (CellRef × ℤ) :=
  ((self.byUpper.get? source).getD []).flatMap fun upperToMiddle =>
    ((self.byUpper.get? upperToMiddle.lower).getD []).map fun middleToLower =>
      (middleToLower.lower, upperToMiddle.sign.asI128 * middleToLower.sign.asI128)

/-- Refuse a cell whose twofold boundary has a coefficient other than zero. -/
def verifyCell (self : FiniteCellComplex) (source : CellRef) : Except TerminalRelativeError Unit :=
  match (SortedMap.totals (self.contributions source)).entries.find? fun entry => entry.2 ≠ 0 with
  | some (target, value) => .error (.boundarySquaredNonzero source target value)
  | none => .ok ()

def verifyBoundarySquared (self : FiniteCellComplex) : Except TerminalRelativeError Unit :=
  (List.range' 2 (self.dimension - 1)).forM fun degree =>
    (List.range (self.cellCounts.getD degree 0)).forM fun ordinal =>
      self.verifyCell ⟨degree, ordinal⟩

/-- Admit the incidences of a complex. Incidences of one key are refused, so their
order among each other does not matter. -/
def tryNew (dimension : ℕ) (cellCounts : List ℕ) (incidences : List BoundaryIncidence) :
    Except TerminalRelativeError FiniteCellComplex := do
  refuseWhen (dimension > maxTerminalRelativeDimension)
    (.dimensionTooLarge dimension maxTerminalRelativeDimension)
  refuseWhen (cellCounts.length ≠ dimension + 1) (.cellCountArity dimension cellCounts.length)
  let total ← totalCells cellCounts
  refuseWhen (total = 0 ∨ total > maxTerminalRelativeCells)
    (.cellBudgetExceeded total maxTerminalRelativeCells)
  refuseWhen (incidences.length > maxTerminalRelativeIncidences)
    (.incidenceBudgetExceeded incidences.length maxTerminalRelativeIncidences)
  incidences.forM (validateIncidence cellCounts)
  let incidences := sortByKey BoundaryIncidence.key incidences
  refuseDuplicates incidences
  let complex : FiniteCellComplex := ⟨dimension, cellCounts, incidences⟩
  complex.verifyBoundarySquared
  pure complex

end FiniteCellComplex

/-- A set of cells, visited in their order. -/
abbrev CellSet := SortedMap CellRef Unit

structure CellularSubcomplex where
  id : String
  cells : CellSet
  deriving DecidableEq

/-- Refuse a cell with a face outside the set. -/
def requireFaces (id : String) (cells : CellSet) (ambient : FiniteCellComplex)
    (cell : CellRef) : Except TerminalRelativeError Unit :=
  (ambient.incidences.filter fun entry => entry.upper = cell).forM fun incidence =>
    refuseWhen (cells.contains incidence.lower = false) (.notASubcomplex id cell incidence.lower)

def validateSubcomplexAgainst (subcomplex : CellularSubcomplex) (ambient : FiniteCellComplex) :
    Except TerminalRelativeError Unit :=
  subcomplex.cells.keys.forM fun cell => do
    refuseWhen (ambient.contains cell = false) (.cellOutOfRange cell)
    requireFaces subcomplex.id subcomplex.cells ambient cell

/-- Admit declared cells with all their faces. -/
def CellularSubcomplex.tryNew (id : String) (cells : List CellRef) (ambient : FiniteCellComplex) :
    Except TerminalRelativeError CellularSubcomplex := do
  let canonical ← cells.foldlM (fun (canonical : CellSet) cell => do
    refuseWhen (ambient.contains cell = false) (.cellOutOfRange cell)
    refuseWhen (canonical.contains cell = true) (.duplicateSubcomplexCell id cell)
    pure (canonical.insert cell ())) SortedMap.empty
  canonical.keys.forM (requireFaces id canonical ambient)
  pure ⟨id, canonical⟩

end FrankenSim.Relative
