import FrankenSim.Relative.Periods

/-!
# Classes of cycles

A chain is checked to be a cycle, its coordinates in the presentation are reduced modulo the
torsion orders, and it is decomposed into generators and a boundary. The coordinates decide
the homology class, and the self-checks never fail.
-/
namespace FrankenSim.Relative

open Library Library.Polled Smith

/-- Limits of a class. -/
structure HomologyClassBudget where
  maxOutputEntries : ℕ
  maxRetainedEntries : ℕ
  maxWorkspaceEntries : ℕ
  maxScalarOperations : ℕ

/-- A chain on the basis of a pair, a phase and a degree. -/
structure IntegralRelativeChain where
  pair : List UInt8
  phase : String
  degree : ℕ
  coefficients : List ℤ

def IntegralRelativeChain.coefficient (chain : IntegralRelativeChain) (term : ℕ) : ℤ :=
  chain.coefficients.getD term 0

structure VerifiedTerminalRelativeIntegralHomologyClass where
  periods : VerifiedTerminalRelativeFreeCocyclePeriods
  chain : IntegralRelativeChain
  classCoordinates : ExactIntegerMatrix
  boundaryAdjustment : ExactIntegerMatrix
  workItems : ℕ
  scalarOperations : ℕ
  retainedEntries : ℕ

namespace VerifiedTerminalRelativeIntegralHomologyClass

variable (self : VerifiedTerminalRelativeIntegralHomologyClass)

def torsionResidues : List ℤ :=
  self.classCoordinates.entries.take self.periods.generators.torsionCount

def freeCoordinates : List ℤ :=
  self.classCoordinates.entries.drop self.periods.generators.torsionCount

def representsZeroClass : Bool := self.classCoordinates.entries.all fun coordinate => coordinate = 0

def isBoundary : Bool := self.representsZeroClass

end VerifiedTerminalRelativeIntegralHomologyClass

section Classes

variable (machine : Machine)

def plannedHomologyClassScalarOperations (outgoingRows chainExtent incomingCols cycleRank
    boundaryRank generatorCount freeCount : ℕ) : Except IntegralTopologyError ℕ := do
  let cycle ← checkedHomologyGeneratorPlanProduct machine [outgoingRows, chainExtent]
    "terminal-relative homology-class cycle scalar operations"
  let outgoingTransform ← checkedHomologyGeneratorPlanProduct machine [chainExtent, chainExtent]
    "terminal-relative homology-class outgoing transform operations"
  let presentation ← checkedHomologyGeneratorPlanProduct machine [cycleRank, cycleRank]
    "terminal-relative homology-class presentation operations"
  let periods ← checkedHomologyGeneratorPlanProduct machine [freeCount, chainExtent]
    "terminal-relative homology-class free-period operations"
  let adjustment ← checkedHomologyGeneratorPlanProduct machine [incomingCols, boundaryRank]
    "terminal-relative homology-class adjustment operations"
  let decompositionWidth ← machine.checkedExtent (generatorCount + incomingCols)
    "terminal-relative homology-class decomposition width"
  let decomposition ← checkedHomologyGeneratorPlanProduct machine [chainExtent, decompositionWidth]
    "terminal-relative homology-class decomposition operations"
  plannedTotal machine "terminal-relative homology-class scalar operations"
    [cycle, outgoingTransform, presentation, periods, adjustment, decomposition]

def plannedHomologyClassWorkItems (outgoingRows chainExtent incomingCols cycleRank freeCount : ℕ) :
    Except IntegralTopologyError ℕ :=
  plannedTotal machine "terminal-relative homology-class work items"
    [outgoingRows, chainExtent, cycleRank, freeCount, incomingCols, chainExtent]

def homologyClassRun (checkpoint : Checkpoint) (workItems scalarOperations : ℕ) : StageRun where
  machine := machine
  checkpoint := checkpoint
  workItems := workItems
  scalarOperations := scalarOperations
  workPhase := "completed terminal-relative homology-class work"
  scalarPhase := "completed terminal-relative homology-class scalar operations"
  cancelled := .homologyClassCancelled

variable (periods : VerifiedTerminalRelativeFreeCocyclePeriods) (chain : IntegralRelativeChain)
  (run : StageRun)

def verifyClassCycle (_ : Unit) (row completed : ℕ) : Except HomologyError (Unit × ℕ) := do
  let outgoing := periods.generators.homology.transport.outgoing.matrix
  let (actual, completed) ← run.innerProduct outgoing.cols (outgoing.entry row) chain.coefficient
    (.homologyClassArithmeticOverflow .cycleVerification row) (0, completed)
  refuseWhen (actual ≠ 0) (.homologyClassNotCycle row actual)
  pure ((), completed)

/-- One coordinate of the chain in the outgoing Smith form, zero before the rank. -/
def smithCoordinate (coordinates : List ℤ) (row completed : ℕ) :
    Except HomologyError (List ℤ × ℕ) := do
  let transport := periods.generators.homology.transport
  let (coordinate, completed) ← run.innerProduct transport.chainExtent
    (transport.outgoingSmith.witness.rightInverse.entry row) chain.coefficient
    (.homologyClassArithmeticOverflow .outgoingSmithCoordinateTransform row) (0, completed)
  refuseWhen (row < transport.outgoingRank ∧ coordinate ≠ 0)
    (.homologyClassVerificationMismatch .outgoingSmithCoordinateTransform row 0 coordinate)
  pure (coordinates.set row coordinate, completed)

/-- The quotients by the diagonal and the coordinates of the class. -/
structure ClassValues where
  diagonalQuotients : List ℤ
  classValues : List ℤ

/-- One coordinate in the presentation, reduced modulo its factor before the boundary rank. -/
def presentationCoordinate (smithCoordinates : List ℤ) (values : ClassValues)
    (index completed : ℕ) : Except HomologyError (ClassValues × ℕ) := do
  let homology := periods.generators.homology
  let (coordinate, completed) ← run.innerProduct homology.cycleRank
    (homology.imageSmith.witness.left.entry index)
    (fun term => smithCoordinates.getD (homology.transport.outgoingRank + term) 0)
    (.homologyClassArithmeticOverflow .presentationCoordinateTransform index) (0, completed)
  if index < homology.boundaryRank then
    let factor := homology.imageSmith.invariantFactors.getD index 0
    refuseWhen (factor ≤ 0)
      (.homologyClassInvariantLost "nonpositive retained presentation factor")
    pure (⟨values.diagonalQuotients.set index (coordinate / factor),
      if index ≥ homology.torsionStart then
        values.classValues.set (index - homology.torsionStart) (coordinate % factor)
      else values.classValues⟩, completed)
  else
    pure ({ values with
      classValues := values.classValues.set
        (periods.generators.torsionCount + index - homology.boundaryRank) coordinate }, completed)

def verifyFreePeriod (classValues : List ℤ) (_ : Unit) (free completed : ℕ) :
    Except HomologyError (Unit × ℕ) := do
  let cocycles := periods.cocycleRepresentatives
  let (actual, completed) ← run.innerProduct periods.generators.homology.transport.chainExtent
    (fun term => cocycles.entry term free) chain.coefficient
    (.homologyClassArithmeticOverflow .freePeriodVerification free) (0, completed)
  let expected := classValues.getD (periods.generators.torsionCount + free) 0
  refuseWhen (actual ≠ expected)
    (.homologyClassVerificationMismatch .freePeriodVerification free expected actual)
  pure ((), completed)

def adjustBoundary (diagonalQuotients adjustment : List ℤ) (row completed : ℕ) :
    Except HomologyError (List ℤ × ℕ) := do
  let homology := periods.generators.homology
  let (value, completed) ← run.innerProduct homology.boundaryRank
    (homology.imageSmith.witness.right.entry row) (fun term => diagonalQuotients.getD term 0)
    (.homologyClassArithmeticOverflow .boundaryAdjustment row) (0, completed)
  pure (adjustment.set row value, completed)

/-- The chain is the combination of the generators and the boundary of the adjustment. -/
def verifyDecomposition (classValues adjustment : List ℤ) (_ : Unit) (row completed : ℕ) :
    Except HomologyError (Unit × ℕ) := do
  let generators := periods.generators
  let incoming := generators.homology.transport.incoming.matrix
  let state ← run.innerProduct generators.generatorCount
    (generators.cycleRepresentatives.entry row) (fun term => classValues.getD term 0)
    (.homologyClassArithmeticOverflow .decompositionVerification row) (0, completed)
  let (actual, completed) ← run.innerProduct incoming.cols (incoming.entry row)
    (fun term => adjustment.getD term 0)
    (fun term => .homologyClassArithmeticOverflow .decompositionVerification row
      (generators.generatorCount + term)) state
  let expected := chain.coefficient row
  refuseWhen (actual ≠ expected)
    (.homologyClassVerificationMismatch .decompositionVerification row expected actual)
  pure ((), completed)

/-- A column of values. -/
def columnOf (values : List ℤ) : ExactIntegerMatrix where
  rows := values.length
  cols := 1
  entries := values
  length_eq := (Nat.mul_one _).symm

/-- The checks before the first poll, with the retained entries, the inner-product terms and
the work items of the plan. -/
def homologyClassPreflight (budget : HomologyClassBudget) :
    Polled HomologyError (ℕ × ℕ × ℕ) := do
  let generators := periods.generators
  let homology := generators.homology
  let transport := homology.transport
  let outgoing := transport.outgoing.matrix
  let incoming := transport.incoming.matrix
  let outgoingSmith := transport.outgoingSmith
  let imageSmith := homology.imageSmith
  let generatorMatrix := generators.cycleRepresentatives
  let cocycleMatrix := periods.cocycleRepresentatives
  refuseIf (chain.pair ≠ transport.outgoing.pair) (.homologyClassBindingMismatch "pair identity")
  refuseIf (chain.phase ≠ transport.outgoing.phase)
    (.homologyClassBindingMismatch "phase identity")
  refuseIf (chain.degree ≠ transport.outgoing.sourceDegree)
    (.homologyClassBindingMismatch "chain degree")
  let outgoingRows := outgoing.rows
  let chainExtent := transport.chainExtent
  let incomingCols := incoming.cols
  let outgoingRank := transport.outgoingRank
  let cycleRank := homology.cycleRank
  let boundaryRank := homology.boundaryRank
  let torsionStart := homology.torsionStart
  let torsionCount := generators.torsionCount
  let generatorCount := generators.generatorCount
  let freeCount := generators.freeGeneratorCount
  refuseIf (chain.coefficients.length ≠ chainExtent)
    (.homologyClassCoefficientArityLost chainExtent chain.coefficients.length)
  refuseIf (¬ (incoming.rows = chainExtent ∧ outgoingRank ≤ chainExtent ∧
      outgoingSmith.rank = outgoingRank ∧ cycleRank = chainExtent - outgoingRank ∧
      boundaryRank ≤ cycleRank ∧ boundaryRank ≤ incomingCols ∧
      imageSmith.rank = boundaryRank ∧ imageSmith.invariantFactors.length = boundaryRank ∧
      torsionStart ≤ boundaryRank ∧ torsionCount = boundaryRank - torsionStart ∧
      freeCount = cycleRank - boundaryRank ∧ generatorCount = torsionCount + freeCount ∧
      outgoingSmith.witness.rightInverse.rows = chainExtent ∧
      outgoingSmith.witness.rightInverse.cols = chainExtent ∧
      imageSmith.witness.left.rows = cycleRank ∧ imageSmith.witness.left.cols = cycleRank ∧
      imageSmith.witness.right.rows = incomingCols ∧
      imageSmith.witness.right.cols = incomingCols ∧ generatorMatrix.rows = chainExtent ∧
      generatorMatrix.cols = generatorCount ∧ cocycleMatrix.rows = chainExtent ∧
      cocycleMatrix.cols = freeCount))
    (.homologyClassInvariantLost "retained homology-class shapes and ranks")
  let outputEntries ← exact (machine.checkedExtent (generatorCount + incomingCols)
    "terminal-relative homology-class output entries")
  refuseIf (outputEntries > budget.maxOutputEntries)
    (.homologyClassOutputBudgetExceeded outputEntries budget.maxOutputEntries)
  let workspaceEntries ← exact (machine.checkedExtent (chainExtent + boundaryRank)
    "terminal-relative homology-class workspace entries")
  refuseIf (workspaceEntries > budget.maxWorkspaceEntries)
    (.algebra (.workspaceEntryBudgetExceeded workspaceEntries budget.maxWorkspaceEntries))
  let retainedEntries ← exact (machine.checkedTotal
    "terminal-relative homology-class retained entries" periods.retainedEntries
    [chain.coefficients.length, outputEntries])
  refuseIf (retainedEntries > budget.maxRetainedEntries)
    (.algebra (.retainedEntryBudgetExceeded retainedEntries budget.maxRetainedEntries))
  let scalarOperations ← exact (plannedHomologyClassScalarOperations machine outgoingRows
    chainExtent incomingCols cycleRank boundaryRank generatorCount freeCount)
  refuseIf (scalarOperations > budget.maxScalarOperations)
    (.algebra (.scalarWorkBudgetExceeded scalarOperations budget.maxScalarOperations))
  let workItems ← exact (plannedHomologyClassWorkItems machine outgoingRows chainExtent
    incomingCols cycleRank freeCount)
  pure (retainedEntries, scalarOperations, workItems)

/-- The stages of a classification, from the first poll to the last. -/
def homologyClassStages (retainedEntries : ℕ) :
    Polled HomologyError VerifiedTerminalRelativeIntegralHomologyClass := do
  let generators := periods.generators
  let homology := generators.homology
  let transport := homology.transport
  let outgoingRows := transport.outgoing.matrix.rows
  let chainExtent := transport.chainExtent
  let incomingCols := transport.incoming.matrix.cols
  let cycleRank := homology.cycleRank
  let boundaryRank := homology.boundaryRank
  let generatorCount := generators.generatorCount
  let freeCount := generators.freeGeneratorCount
  run.poll "terminal-relative homology-class preflight" ⟨0, 0⟩
  let (_, progress) ← run.items "terminal-relative homology-class cycle verification"
    (List.range outgoingRows) (verifyClassCycle periods chain run) ((), ⟨0, 0⟩)
  run.poll "terminal-relative homology-class allocation" progress
  exact (run.machine.reserveExact "homology-class outgoing Smith coordinates" chainExtent)
  exact (run.machine.reserveExact "homology-class diagonal quotients" boundaryRank)
  exact (run.machine.reserveExact "homology-class coordinates" generatorCount)
  exact (run.machine.reserveExact "homology-class boundary adjustment" incomingCols)
  let (smithCoordinates, progress) ← run.items
    "terminal-relative homology-class outgoing Smith transform" (List.range chainExtent)
    (smithCoordinate periods chain run) (List.replicate chainExtent 0, progress)
  let (values, progress) ← run.items "terminal-relative homology-class presentation transform"
    (List.range cycleRank) (presentationCoordinate periods run smithCoordinates)
    (⟨List.replicate boundaryRank 0, List.replicate generatorCount 0⟩, progress)
  let (_, progress) ← run.items "terminal-relative homology-class free-period verification"
    (List.range freeCount) (verifyFreePeriod periods chain run values.classValues) ((), progress)
  let (adjustment, progress) ← run.items "terminal-relative homology-class boundary adjustment"
    (List.range incomingCols) (adjustBoundary periods run values.diagonalQuotients)
    (List.replicate incomingCols 0, progress)
  let (_, progress) ← run.items "terminal-relative homology-class decomposition verification"
    (List.range chainExtent) (verifyDecomposition periods chain run values.classValues adjustment)
    ((), progress)
  run.poll "terminal-relative homology-class finalize" progress
  pure ⟨periods, chain, columnOf values.classValues, columnOf adjustment, progress.work,
    progress.scalar, retainedEntries⟩

end Classes

/-- The coordinates of a cycle's class, with a chain that fills the rest. -/
def verifyTerminalRelativeIntegralHomologyClassWithCheckpoint (machine : Machine)
    (periods : VerifiedTerminalRelativeFreeCocyclePeriods) (chain : IntegralRelativeChain)
    (budget : HomologyClassBudget) (checkpoint : Checkpoint) :
    Polled HomologyError VerifiedTerminalRelativeIntegralHomologyClass := do
  let (retainedEntries, scalarOperations, workItems) ←
    homologyClassPreflight machine periods chain budget
  homologyClassStages periods chain
    (homologyClassRun machine checkpoint workItems scalarOperations) retainedEntries

section Refusals

/-- Refusals of exact matrix work for want of resources. -/
def Resource : IntegralTopologyError → Prop
  | .workPlanOverflow _ => True
  | .allocationRefused .. => True
  | .retainedEntryBudgetExceeded .. => True
  | .workspaceEntryBudgetExceeded .. => True
  | .scalarWorkBudgetExceeded .. => True
  | _ => False

/-- The refusals of a class: a lack of resources, a cancellation, an overflow, a chain that is
not bound to the pair or one that is no cycle. -/
def ClassRefusal (unbound acyclic overflows starved interrupted : Prop) : HomologyError → Prop
  | .algebra error => Resource error ∧ starved
  | .homologyClassOutputBudgetExceeded .. => starved
  | .homologyClassArithmeticOverflow .. => overflows
  | .homologyClassCancelled .. => interrupted
  | .homologyClassBindingMismatch _ => unbound
  | .homologyClassCoefficientArityLost .. => unbound
  | .homologyClassNotCycle .. => acyclic
  | _ => False

theorem not_classRefusal {unbound acyclic overflows starved interrupted : Prop}
    (hunbound : ¬ unbound) (hacyclic : ¬ acyclic) (hoverflows : ¬ overflows)
    (hstarved : ¬ starved) (hinterrupted : ¬ interrupted) (error : HomologyError) :
    ¬ ClassRefusal unbound acyclic overflows starved interrupted error := by
  cases error <;> simp only [ClassRefusal, hunbound, hacyclic, hoverflows, hstarved, hinterrupted,
    and_false, not_false_eq_true]

/-- The inner-product terms of a classification. -/
def classTerms (periods : VerifiedTerminalRelativeFreeCocyclePeriods) : ℕ :=
  let homology := periods.generators.homology
  let chainExtent := homology.transport.outgoing.matrix.cols
  let incomingCols := homology.transport.incoming.matrix.cols
  homology.transport.outgoing.matrix.rows * chainExtent + chainExtent * chainExtent +
    homology.cycleRank * homology.cycleRank +
    periods.generators.freeGeneratorCount * chainExtent + incomingCols * homology.boundaryRank +
    chainExtent * (periods.generators.generatorCount + incomingCols)

/-- The work items of a classification. -/
def classItems (periods : VerifiedTerminalRelativeFreeCocyclePeriods) : ℕ :=
  let homology := periods.generators.homology
  homology.transport.outgoing.matrix.rows + homology.transport.outgoing.matrix.cols +
    homology.cycleRank + periods.generators.freeGeneratorCount +
    homology.transport.incoming.matrix.cols + homology.transport.outgoing.matrix.cols

/-- The coordinates and the adjustment that a classification returns. -/
def classOutput (periods : VerifiedTerminalRelativeFreeCocyclePeriods) : ℕ :=
  periods.generators.generatorCount +
    periods.generators.homology.transport.incoming.matrix.cols

/-- The entries that a classification works on beside its output. -/
def classWorkspace (periods : VerifiedTerminalRelativeFreeCocyclePeriods) : ℕ :=
  periods.generators.homology.transport.outgoing.matrix.cols +
    periods.generators.homology.boundaryRank

/-- The entries that a classification retains. -/
def classRetained (periods : VerifiedTerminalRelativeFreeCocyclePeriods) : ℕ :=
  periods.retainedEntries + periods.generators.homology.transport.outgoing.matrix.cols +
    classOutput periods

/-- The machine and the budget have room for a classification. -/
structure Supplied (machine : Machine) (periods : VerifiedTerminalRelativeFreeCocyclePeriods)
    (budget : HomologyClassBudget) : Prop where
  output : classOutput periods ≤ budget.maxOutputEntries
  workspace : classWorkspace periods ≤ budget.maxWorkspaceEntries
  retained : classRetained periods ≤ budget.maxRetainedEntries
  scalar : classTerms periods ≤ budget.maxScalarOperations
  extents : ∀ n ≤ classRetained periods + classWorkspace periods, machine.extent n = true
  counts : ∀ n ≤ classTerms periods + classItems periods, machine.count n = true
  allocates : ∀ phase, ∀ entries ≤ classOutput periods + classWorkspace periods,
    machine.allocates phase entries = true

variable {unbound acyclic overflows starved interrupted : Prop} {machine : Machine}
  {periods : VerifiedTerminalRelativeFreeCocyclePeriods} {budget : HomologyClassBudget}

theorem exact_classes {α : Type} {x : Except IntegralTopologyError α} {Q : α → Prop}
    (h : Within (fun error => Resource error ∧ starved) Q x) :
    Ensures (ClassRefusal unbound acyclic overflows starved interrupted) Q (exact x) := by
  apply Ensures.unpolled
  cases x with
  | error error => exact h
  | ok value => exact h

theorem starved_of_extent (hstarved : ¬ Supplied machine periods budget → starved) {n : ℕ}
    (hn : n ≤ classRetained periods + classWorkspace periods) (h : machine.extent n = false) :
    starved :=
  hstarved fun hsupplied => Bool.false_ne_true (h.symm.trans (hsupplied.extents n hn))

theorem starved_of_count (hstarved : ¬ Supplied machine periods budget → starved) {n : ℕ}
    (hn : n ≤ classTerms periods + classItems periods) (h : machine.count n = false) : starved :=
  hstarved fun hsupplied => Bool.false_ne_true (h.symm.trans (hsupplied.counts n hn))

theorem starved_of_allocation (hstarved : ¬ Supplied machine periods budget → starved)
    {phase : String} {entries : ℕ} (hn : entries ≤ classOutput periods + classWorkspace periods)
    (h : machine.allocates phase entries = false) : starved :=
  hstarved fun hsupplied =>
    Bool.false_ne_true (h.symm.trans (hsupplied.allocates phase entries hn))

/-- A planned product of two counts checks the first of them and the product. -/
theorem planProduct_within {a b : ℕ} {phase : String}
    (ha : machine.count a = false → starved) (hab : machine.count (a * b) = false → starved) :
    Within (fun error => Resource error ∧ starved) (· = a * b)
      (checkedHomologyGeneratorPlanProduct machine [a, b] phase) := by
  unfold checkedHomologyGeneratorPlanProduct Machine.checkedProduct
  simp only [List.foldlM_cons, List.foldlM_nil, bind_pure, one_mul]
  apply Within.bind (checkedCount_within fun h => ⟨trivial, ha h⟩)
  rintro _ rfl
  exact checkedCount_within fun h => ⟨trivial, hab h⟩

/-- Every partial sum of a planned total is at most the total. -/
theorem plannedTotal_within {phase : String} {counts : List ℕ}
    (h : ∀ n ≤ counts.sum, machine.count n = false → starved) :
    Within (fun error => Resource error ∧ starved) (· = counts.sum)
      (plannedTotal machine phase counts) := by
  have hloop (later : List ℕ) (total : ℕ) (hlater : total + later.sum ≤ counts.sum) :
      Within (fun error => Resource error ∧ starved) (· = total + later.sum)
        (later.foldlM (fun total count => machine.checkedCount (total + count) phase) total) := by
    induction later generalizing total with
    | nil => exact Within.ok rfl
    | cons value later ih =>
      rw [List.sum_cons, ← add_assoc] at hlater ⊢
      rw [List.foldlM_cons]
      apply Within.bind (checkedCount_within fun hc => ⟨trivial, h (total + value) (by omega) hc⟩)
      rintro _ rfl
      exact ih _ hlater
  have htotal := hloop counts 0 (by omega)
  rwa [Nat.zero_add] at htotal

theorem plannedScalar_within (hstarved : ¬ Supplied machine periods budget → starved) :
    Within (fun error => Resource error ∧ starved) (· = classTerms periods)
      (plannedHomologyClassScalarOperations machine
        periods.generators.homology.transport.outgoing.matrix.rows
        periods.generators.homology.transport.outgoing.matrix.cols
        periods.generators.homology.transport.incoming.matrix.cols
        periods.generators.homology.cycleRank periods.generators.homology.boundaryRank
        periods.generators.generatorCount periods.generators.freeGeneratorCount) := by
  have hcount {n : ℕ} (hn : n ≤ classTerms periods + classItems periods)
      (h : machine.count n = false) : starved :=
    starved_of_count hstarved hn h
  have hextents : classOutput periods ≤ classRetained periods + classWorkspace periods := by
    unfold classRetained
    omega
  unfold classTerms classItems at hcount
  unfold classTerms
  unfold plannedHomologyClassScalarOperations
  dsimp only at hcount ⊢
  apply Within.bind (planProduct_within (hcount (by omega)) (hcount (by omega)))
  rintro _ rfl
  apply Within.bind (planProduct_within (hcount (by omega)) (hcount (by omega)))
  rintro _ rfl
  apply Within.bind (planProduct_within (hcount (by omega)) (hcount (by omega)))
  rintro _ rfl
  apply Within.bind (planProduct_within (hcount (by omega)) (hcount (by omega)))
  rintro _ rfl
  apply Within.bind (planProduct_within (hcount (by omega)) (hcount (by omega)))
  rintro _ rfl
  apply Within.bind (checkedExtent_within fun h =>
    ⟨trivial, starved_of_extent hstarved hextents h⟩)
  rintro _ rfl
  apply Within.bind (planProduct_within (hcount (by omega)) (hcount (by omega)))
  rintro _ rfl
  apply (plannedTotal_within _).imp
  · rintro _ rfl
    simp only [List.sum_cons, List.sum_nil]
    omega
  · intro n hn
    simp only [List.sum_cons, List.sum_nil] at hn
    exact hcount (by omega)

theorem plannedWorkItems_within (hstarved : ¬ Supplied machine periods budget → starved) :
    Within (fun error => Resource error ∧ starved) (fun _ => True)
      (plannedHomologyClassWorkItems machine
        periods.generators.homology.transport.outgoing.matrix.rows
        periods.generators.homology.transport.outgoing.matrix.cols
        periods.generators.homology.transport.incoming.matrix.cols
        periods.generators.homology.cycleRank periods.generators.freeGeneratorCount) := by
  unfold plannedHomologyClassWorkItems
  apply (plannedTotal_within _).imp fun _ _ => trivial
  intro n hn h
  apply starved_of_count hstarved _ h
  simp only [List.sum_cons, List.sum_nil] at hn
  unfold classItems
  dsimp only
  omega

end Refusals

section Values

open Matrix

variable {report : VerifiedTerminalRelativeHomology} {chain : IntegralRelativeChain}

/-- The chain as a column. -/
def IntegralRelativeChain.vector (chain : IntegralRelativeChain) (n : ℕ) : Fin n → ℤ :=
  fun i => chain.coefficient i

def boundaryValue (report : VerifiedTerminalRelativeHomology) (chain : IntegralRelativeChain)
    (row : ℕ) : ℤ :=
  ∑ term ∈ Finset.range report.transport.outgoing.matrix.cols,
    report.transport.outgoing.matrix.value row term * chain.coefficient term

def smithValue (report : VerifiedTerminalRelativeHomology) (chain : IntegralRelativeChain)
    (row : ℕ) : ℤ :=
  ∑ term ∈ Finset.range report.transport.outgoing.matrix.cols,
    report.transport.outgoingSmith.witness.rightInverse.value row term * chain.coefficient term

def coordinateValue (report : VerifiedTerminalRelativeHomology) (chain : IntegralRelativeChain)
    (index : ℕ) : ℤ :=
  ∑ term ∈ Finset.range report.cycleRank,
    report.imageSmith.witness.left.value index term *
      smithValue report chain (report.transport.outgoingRank + term)

/-- The residue modulo the order of a generator, which is zero for a free one. -/
def classValue (report : VerifiedTerminalRelativeHomology) (chain : IntegralRelativeChain)
    (index : ℕ) : ℤ :=
  coordinateValue report chain (report.torsionStart + index) %
    report.torsionInvariantFactors.getD index 0

def quotientValue (report : VerifiedTerminalRelativeHomology) (chain : IntegralRelativeChain)
    (index : ℕ) : ℤ :=
  coordinateValue report chain index / report.imageSmith.invariantFactors.getD index 0

def adjustmentValue (report : VerifiedTerminalRelativeHomology) (chain : IntegralRelativeChain)
    (row : ℕ) : ℤ :=
  ∑ term ∈ Finset.range report.boundaryRank,
    report.imageSmith.witness.right.value row term * quotientValue report chain term

/-- Every product and every partial sum of a classification is a coefficient of the machine. -/
structure ArithmeticFits (machine : Machine) (periods : VerifiedTerminalRelativeFreeCocyclePeriods)
    (chain : IntegralRelativeChain) : Prop where
  cycle : ∀ row < periods.generators.homology.transport.outgoing.matrix.rows,
    Fits machine 0 (fun term =>
      periods.generators.homology.transport.outgoing.matrix.value row term *
        chain.coefficient term) periods.generators.homology.transport.outgoing.matrix.cols
  smith : ∀ row < periods.generators.homology.transport.outgoing.matrix.cols,
    Fits machine 0 (fun term =>
      periods.generators.homology.transport.outgoingSmith.witness.rightInverse.value row term *
        chain.coefficient term) periods.generators.homology.transport.outgoing.matrix.cols
  coordinate : ∀ index < periods.generators.homology.cycleRank,
    Fits machine 0 (fun term =>
      periods.generators.homology.imageSmith.witness.left.value index term *
        smithValue periods.generators.homology chain
          (periods.generators.homology.transport.outgoingRank + term))
      periods.generators.homology.cycleRank
  period : ∀ free < periods.generators.freeGeneratorCount,
    Fits machine 0 (fun term => dualValue periods.generators.homology term free *
      chain.coefficient term) periods.generators.homology.transport.outgoing.matrix.cols
  adjustment : ∀ row < periods.generators.homology.transport.incoming.matrix.cols,
    Fits machine 0 (fun term =>
      periods.generators.homology.imageSmith.witness.right.value row term *
        quotientValue periods.generators.homology chain term)
      periods.generators.homology.boundaryRank
  combination : ∀ row < periods.generators.homology.transport.outgoing.matrix.cols,
    Fits machine 0 (fun term => periods.generators.cycleRepresentatives.value row term *
      classValue periods.generators.homology chain term) periods.generators.generatorCount
  boundary : ∀ row < periods.generators.homology.transport.outgoing.matrix.cols,
    Fits machine (∑ term ∈ Finset.range periods.generators.generatorCount,
        periods.generators.cycleRepresentatives.value row term *
          classValue periods.generators.homology chain term)
      (fun term => periods.generators.homology.transport.incoming.matrix.value row term *
        adjustmentValue periods.generators.homology chain term)
      periods.generators.homology.transport.incoming.matrix.cols

/-- The chain is a cycle of the outgoing boundary. -/
def IsCycle (report : VerifiedTerminalRelativeHomology) (chain : IntegralRelativeChain) : Prop :=
  report.transport.outgoing.matrix.toMatrix report.transport.outgoing.matrix.rows
    report.transport.outgoing.matrix.cols *ᵥ chain.vector _ = 0

theorem isCycle_iff : IsCycle report chain ↔
    ∀ row < report.transport.outgoing.matrix.rows, boundaryValue report chain row = 0 := by
  have hrow : ∀ i : Fin report.transport.outgoing.matrix.rows,
      (report.transport.outgoing.matrix.toMatrix report.transport.outgoing.matrix.rows
        report.transport.outgoing.matrix.cols *ᵥ chain.vector _) i =
        boundaryValue report chain i := by
    intro i
    rw [boundaryValue, Finset.sum_range]
    rfl
  constructor
  · intro h row hlt
    rw [← hrow ⟨row, hlt⟩, h]
    rfl
  · intro h
    funext i
    rw [hrow]
    exact h i i.2

theorem coordinateValue_eq (h : Bound report) (i : Fin report.cycleRank) :
    (presentationRows report.transport.outgoingSmith report.imageSmith h.kernelRows *ᵥ
      chain.vector _) i = coordinateValue report chain i := by
  unfold presentationRows
  rw [← mulVec_mulVec, coordinateValue, Finset.sum_range]
  simp only [mulVec, dotProduct]
  apply Finset.sum_congr rfl
  intro term _
  rw [smithValue, Finset.sum_range]
  rfl

theorem smithValue_eq_zero (h : Bound report) (hcycle : IsCycle report chain) {row : ℕ}
    (hrow : row < report.transport.outgoingRank) : smithValue report chain row = 0 := by
  have hkernel := h.kernelRows
  have hlt : row < report.transport.outgoingSmith.source.cols := by
    rw [h.outgoingSource]
    omega
  have hsource : report.transport.outgoingSmith.source.toMatrix
      report.transport.outgoingSmith.source.rows report.transport.outgoingSmith.source.cols *ᵥ
      chain.vector _ = 0 := by
    rw [h.outgoingSource]
    exact hcycle
  have hzero := cycle_coordinate_eq_zero h.smith hsource (i := ⟨row, hlt⟩) hrow
  rw [smithValue, ← h.outgoingSource, Finset.sum_range]
  exact hzero

theorem factor_eq (h : Bound report) {index : ℕ} (hindex : index < report.boundaryRank) :
    report.imageSmith.invariantFactors.getD index 0 =
      report.imageSmith.witness.diagonal.value index index := by
  have hlt : index < (factorsOf report.imageSmith.witness.diagonal).length := by
    rw [← h.image.rank]
    exact hindex
  rw [h.factors, List.getD_eq_getElem?_getD, (factorsOf_eq h.image.equations.canonical).2.1,
    List.getElem?_map, List.getElem?_range hlt]
  rfl

theorem factor_pos (h : Bound report) {index : ℕ} (hindex : index < report.boundaryRank) :
    0 < report.imageSmith.invariantFactors.getD index 0 := by
  have hlt : index < (factorsOf report.imageSmith.witness.diagonal).length := by
    rw [← h.image.rank]
    exact hindex
  obtain ⟨hmin, hne⟩ := diagonal_ne_zero h.image.equations.canonical hlt
  rw [factor_eq h hindex]
  exact lt_of_le_of_ne (h.image.equations.canonical.nonneg index hmin) (Ne.symm hne)

/-- The class values and the boundary of the adjustment give back a cycle. -/
theorem decomposition_sum (h : Bound report)
    {generators : VerifiedTerminalRelativeHomologyGenerators}
    (hgenerated : Generated report generators) (hcycle : IsCycle report chain) {row : ℕ}
    (hrow : row < report.transport.outgoing.matrix.cols) :
    ∑ term ∈ Finset.range generators.generatorCount,
        generators.cycleRepresentatives.value row term * classValue report chain term +
      ∑ term ∈ Finset.range report.transport.incoming.matrix.cols,
        report.transport.incoming.matrix.value row term * adjustmentValue report chain term =
      chain.coefficient row := by
  obtain ⟨hrows, hextent, hzeros⟩ := h.extents
  have hstart := h.divided.start
  have hcount := hgenerated.generatorCount_eq h
  let a : Fin report.transport.incoming.matrix.cols → ℤ := fun i =>
    if i.val < report.boundaryRank then quotientValue report chain i else 0
  -- what is taken off the coordinates
  have htaken : ∀ i : Fin report.cycleRank,
      (rectDiagonal report.cycleRank report.transport.incoming.matrix.cols
        (fun i => report.imageSmith.witness.diagonal.value i i) *ᵥ a) i =
      if i.val < report.boundaryRank then
        report.imageSmith.invariantFactors.getD i 0 * quotientValue report chain i
      else 0 := by
    intro i
    rw [rectDiagonal_mulVec]
    by_cases hi : i.val < report.boundaryRank
    · rw [dif_pos (by omega), if_pos hi, factor_eq h hi]
      congr 1
      exact if_pos hi
    · rw [if_neg hi]
      split_ifs with hlt
      · rw [hzeros _ (by omega), zero_mul]
      · rfl
  have hunits : ∀ i : Fin report.cycleRank, i.val < report.torsionStart →
      (presentationRows report.transport.outgoingSmith report.imageSmith h.kernelRows *ᵥ
        chain.vector _) i =
      (rectDiagonal report.cycleRank report.transport.incoming.matrix.cols
        (fun i => report.imageSmith.witness.diagonal.value i i) *ᵥ a) i := by
    intro i hi
    have hunit := h.divided.units i hi
    rw [htaken, if_pos (by omega), coordinateValue_eq h, quotientValue,
      factor_eq h (show i.val < report.boundaryRank by omega), hunit, Int.ediv_one, one_mul]
  have hdecomposition := congrFun
    (h.presented.generators_decomposition hcount hcycle hunits) ⟨row, hrow⟩
  rw [Pi.add_apply] at hdecomposition
  refine Eq.trans ?_ hdecomposition
  congr 1
  · rw [Finset.sum_range]
    apply Finset.sum_congr rfl
    intro j _
    congr 1
    · rw [hgenerated.cycles.value_eq hrow (by omega)]
      exact (liftedValue_eq h ⟨row, hrow⟩ (later hcount j) rfl).symm
    · dsimp only
      rw [coordinateValue_eq h, htaken, classValue, torsion_getD, val_later]
      by_cases hj : report.torsionStart + j.val < report.boundaryRank
      · rw [if_pos hj, Int.emod_def, quotientValue]
      · have hnone : report.torsionInvariantFactors.getD j 0 = 0 := by
          rw [List.getD_eq_getElem?_getD, List.getElem?_eq_none (by omega), Option.getD_none]
        rw [if_neg hj, ← torsion_getD, hnone, Int.emod_zero, sub_zero]
  · rw [Finset.sum_range]
    apply Finset.sum_congr rfl
    intro j _
    congr 1
    have hsum : (report.imageSmith.witness.right.toMatrix report.transport.incoming.matrix.cols
        report.transport.incoming.matrix.cols *ᵥ a) j =
        ∑ term ∈ Finset.range report.transport.incoming.matrix.cols,
          if term < report.boundaryRank then
            report.imageSmith.witness.right.value j term * quotientValue report chain term
          else 0 := by
      rw [Finset.sum_range]
      simp only [mulVec, dotProduct]
      apply Finset.sum_congr rfl
      intro term _
      change report.imageSmith.witness.right.value j term *
        (if term.val < report.boundaryRank then quotientValue report chain term else 0) = _
      split_ifs
      · rfl
      · exact mul_zero _
    rw [hsum, adjustmentValue, Finset.sum_ite, Finset.sum_const_zero, add_zero]
    apply Finset.sum_congr _ fun _ _ => rfl
    ext term
    rw [Finset.mem_filter, Finset.mem_range, Finset.mem_range]
    omega

/-- Class values decide the class. -/
theorem classValue_eq_iff (h : Bound report)
    {generators : VerifiedTerminalRelativeHomologyGenerators}
    (hgenerated : Generated report generators) {chain' : IntegralRelativeChain}
    (hcycle : IsCycle report chain) (hcycle' : IsCycle report chain') :
    (∀ j < generators.generatorCount, classValue report chain j = classValue report chain' j) ↔
      ∃ y, report.transport.incoming.matrix.toMatrix report.transport.outgoing.matrix.cols
        report.transport.incoming.matrix.cols *ᵥ y = chain.vector _ - chain'.vector _ := by
  have hcount := hgenerated.generatorCount_eq h
  obtain ⟨hrows, hextent, -⟩ := h.extents
  have hunits : ∀ i < report.torsionStart,
      IsUnit (relationAt report.transport.incoming.matrix.cols
        (fun i => report.imageSmith.witness.diagonal.value i i) i) := by
    intro i hi
    rw [relationAt, if_pos (by omega)]
    rw [h.divided.units i hi]
    exact isUnit_one
  rw [h.presented.homologous_iff_later hcount hunits hcycle hcycle']
  have hvalue : ∀ j : Fin generators.generatorCount,
      (classValue report chain j = classValue report chain' j ↔
        relationAt report.transport.incoming.matrix.cols
          (fun i => report.imageSmith.witness.diagonal.value i i) (report.torsionStart + j) ∣
          (presentationRows report.transport.outgoingSmith report.imageSmith h.kernelRows *ᵥ
            chain.vector _) (later hcount j) -
          (presentationRows report.transport.outgoingSmith report.imageSmith h.kernelRows *ᵥ
            chain'.vector _) (later hcount j)) := by
    intro j
    rw [relation_eq h, coordinateValue_eq h, coordinateValue_eq h, val_later, classValue,
      classValue, Int.emod_eq_emod_iff_emod_sub_eq_zero, Int.dvd_iff_emod_eq_zero]
  constructor
  · intro hall j
    exact (hvalue j).1 (hall j j.2)
  · intro hall j hj
    exact (hvalue ⟨j, hj⟩).2 (hall ⟨j, hj⟩)

end Values

section Stages

open Matrix

variable {cause : HomologyError → Prop} {run : StageRun}

/-- A loop over a range whose items take the same number of terms. -/
theorem StageRun.items_uniform {σ : Type} {phase : String} {n cost work scalar : ℕ}
    {body : σ → ℕ → ℕ → Except HomologyError (σ × ℕ)} {I : List ℕ → σ → Prop} {value : σ}
    (hwork : ∀ m ≤ work + n, run.machine.count m = false →
      cause (.algebra (.workPlanOverflow run.workPhase)))
    (hcancelled : (∃ seen phase, run.checkpoint seen phase = false) →
      ∀ phase work planned scalar total, cause (run.cancelled phase work planned scalar total))
    (h : I [] value)
    (step : ∀ passed place later s completed, passed ++ place :: later = List.range n →
      I passed s → completed + cost ≤ scalar + n * cost →
      Within cause (fun r => I (passed ++ [place]) r.1 ∧ r.2 = completed + cost)
        (body s place completed)) :
    Ensures cause (fun r => I (List.range n) r.1 ∧
        r.2 = ⟨work + n, scalar + n * cost⟩)
      (run.items phase (List.range n) body (value, ⟨work, scalar⟩)) := by
  have hloop : Ensures cause (fun r : σ × Progress => (I (List.range n) r.1 ∧
      r.2.scalar = scalar + (List.range n).length * cost) ∧
      r.2.work = work + (List.range n).length)
      (run.items phase (List.range n) body (value, ⟨work, scalar⟩)) := by
    apply StageRun.items_counted (I := fun passed s total =>
      I passed s ∧ total = scalar + passed.length * cost)
    · rw [List.length_range]
      exact hwork
    · exact hcancelled
    · exact ⟨h, by simp⟩
    rintro passed place later s completed hlist ⟨hI, hscalar⟩
    have hlength : passed.length + 1 ≤ n := by
      rw [← List.length_range (n := n), ← hlist, List.length_append, List.length_cons]
      omega
    have hterms := Nat.mul_le_mul_right cost hlength
    rw [Nat.add_mul, Nat.one_mul] at hterms
    apply (step passed place later s completed hlist hI (by omega)).imp
    rintro r ⟨hnext, hcount⟩
    refine ⟨hnext, ?_⟩
    rw [hcount, hscalar, List.length_append, List.length_singleton, Nat.add_mul, Nat.one_mul,
      Nat.add_assoc]
  apply hloop.imp
  rintro ⟨s, work', scalar'⟩ ⟨⟨hI, hscalar⟩, hcount⟩
  dsimp only at hI hscalar hcount ⊢
  rw [List.length_range] at hscalar hcount
  rw [hscalar, hcount]
  exact ⟨hI, rfl⟩

/-- A loop of checks over a range, each of which ensures a property of its place. -/
theorem StageRun.items_forall {phase : String} {n cost work scalar : ℕ}
    {body : Unit → ℕ → ℕ → Except HomologyError (Unit × ℕ)} {P : ℕ → Prop}
    (hwork : ∀ m ≤ work + n, run.machine.count m = false →
      cause (.algebra (.workPlanOverflow run.workPhase)))
    (hcancelled : (∃ seen phase, run.checkpoint seen phase = false) →
      ∀ phase work planned scalar total, cause (run.cancelled phase work planned scalar total))
    (step : ∀ place < n, ∀ completed, completed + cost ≤ scalar + n * cost →
      Within cause (fun r => P place ∧ r.2 = completed + cost) (body () place completed)) :
    Ensures cause (fun r => (∀ place < n, P place) ∧
        r.2 = ⟨work + n, scalar + n * cost⟩)
      (run.items phase (List.range n) body ((), ⟨work, scalar⟩)) := by
  have hloop : Ensures cause (fun r : Unit × Progress => (∀ place ∈ List.range n, P place) ∧
      r.2 = ⟨work + n, scalar + n * cost⟩)
      (run.items phase (List.range n) body ((), ⟨work, scalar⟩)) := by
    apply StageRun.items_uniform (I := fun passed _ => ∀ place ∈ passed, P place) hwork hcancelled
    · intro place hplace
      cases hplace
    intro passed place later _ completed hlist hpassed hroom
    have hmem : place ∈ List.range n := by
      rw [← hlist]
      exact List.mem_append_right _ List.mem_cons_self
    apply (step place (List.mem_range.1 hmem) completed hroom).imp
    rintro _ ⟨hP, hcount⟩
    refine ⟨fun other hother => ?_, hcount⟩
    rcases List.mem_append.1 hother with hother | hother
    · exact hpassed other hother
    · rw [List.mem_singleton.1 hother]
      exact hP
  apply hloop.imp
  rintro _ ⟨hall, hprogress⟩
  exact ⟨fun place hplace => hall place (List.mem_range.2 hplace), hprogress⟩

theorem mem_range_of_append {n i : ℕ} {passed later : List ℕ}
    (h : passed ++ i :: later = List.range n) : i < n := by
  apply List.mem_range.1
  rw [← h]
  exact List.mem_append_right _ List.mem_cons_self

/-- The list has these values at the places passed. -/
structure Listed (n : ℕ) (f : ℕ → ℤ) (passed : List ℕ) (list : List ℤ) : Prop where
  length_eq : list.length = n
  values : ∀ i ∈ passed, list.getD i 0 = f i

theorem Listed.zeros {n : ℕ} {f : ℕ → ℤ} : Listed n f [] (List.replicate n 0) :=
  ⟨List.length_replicate, fun _ h => absurd h List.not_mem_nil⟩

theorem getD_set {list : List ℤ} {i j : ℕ} (hi : i < list.length) (v : ℤ) :
    (list.set i v).getD j 0 = if j = i then v else list.getD j 0 := by
  rw [List.getD_eq_getElem?_getD, List.getD_eq_getElem?_getD, List.getElem?_set]
  by_cases hij : i = j
  · subst hij
    rw [if_pos rfl, if_pos rfl, if_pos hi, Option.getD_some]
  · rw [if_neg hij, if_neg (Ne.symm hij)]

theorem Listed.step {n i : ℕ} {f : ℕ → ℤ} {passed : List ℕ} {list : List ℤ}
    (h : Listed n f passed list) (hi : i < n) :
    Listed n f (passed ++ [i]) (list.set i (f i)) where
  length_eq := by rw [List.length_set, h.length_eq]
  values := by
    intro j hj
    rw [getD_set (h.length_eq ▸ hi)]
    split_ifs with hji
    · rw [hji]
    · rcases List.mem_append.1 hj with hj | hj
      · exact h.values j hj
      · exact absurd (List.mem_singleton.1 hj) hji

theorem Listed.getD_eq {n i : ℕ} {f : ℕ → ℤ} {list : List ℤ} (h : Listed n f (List.range n) list)
    (hi : i < n) : list.getD i 0 = f i :=
  h.values i (List.mem_range.2 hi)

variable {unbound acyclic overflows starved interrupted : Prop} {machine : Machine}
  {checkpoint : Checkpoint} {workItems scalarOperations completed : ℕ} {periods : VerifiedTerminalRelativeFreeCocyclePeriods}
  {chain : IntegralRelativeChain} {budget : HomologyClassBudget}

theorem verifyClassCycle_within {row : ℕ}
    (hrow : row < periods.generators.homology.transport.outgoing.matrix.rows)
    (hacyclic : boundaryValue periods.generators.homology chain row ≠ 0 → acyclic)
    (hfits : ¬ ArithmeticFits machine periods chain → overflows)
    (hroom : ∀ n ≤ completed + periods.generators.homology.transport.outgoing.matrix.cols, machine.count n = false → starved) :
    Within (ClassRefusal unbound acyclic overflows starved interrupted)
      (fun r => boundaryValue periods.generators.homology chain row = 0 ∧
        r.2 = completed + periods.generators.homology.transport.outgoing.matrix.cols)
      (verifyClassCycle periods chain
        (homologyClassRun machine checkpoint workItems scalarOperations) () row completed) := by
  unfold verifyClassCycle
  refine Within.bind (StageRun.innerProduct_counted
    (fun n hn h => ⟨trivial, hroom n hn h⟩)
    (fun hnot _ => hfits fun hall => hnot (hall.cycle row hrow))
    (g := fun term => periods.generators.homology.transport.outgoing.matrix.value row term *
      chain.coefficient term) ?_) ?_
  · intro term hterm
    rw [ExactIntegerMatrix.value_of_lt hrow hterm]
  · rintro ⟨actual, count⟩ ⟨hactual, hcounted⟩
    dsimp only at hactual hcounted
    rw [zero_add] at hactual
    subst hactual
    apply Within.bind (refuseWhen_within hacyclic)
    intro _ hzero
    exact Within.ok ⟨not_not.1 hzero, hcounted⟩

theorem smithCoordinate_within {row : ℕ} (h : Bound periods.generators.homology)
    (hcycle : IsCycle periods.generators.homology chain) {passed : List ℕ} {list : List ℤ}
    (hlisted : Listed periods.generators.homology.transport.outgoing.matrix.cols
      (smithValue periods.generators.homology chain) passed list)
    (hrow : row < periods.generators.homology.transport.outgoing.matrix.cols)
    (hfits : ¬ ArithmeticFits machine periods chain → overflows)
    (hroom : ∀ n ≤ completed + periods.generators.homology.transport.outgoing.matrix.cols, machine.count n = false → starved) :
    Within (ClassRefusal unbound acyclic overflows starved interrupted)
      (fun r => Listed periods.generators.homology.transport.outgoing.matrix.cols
        (smithValue periods.generators.homology chain) (passed ++ [row]) r.1 ∧
        r.2 = completed + periods.generators.homology.transport.outgoing.matrix.cols)
      (smithCoordinate periods chain
        (homologyClassRun machine checkpoint workItems scalarOperations) list row completed) := by
  obtain ⟨hinverseRows, hinverseCols, -, -⟩ := h.inverseShapes
  unfold smithCoordinate
  refine Within.bind (StageRun.innerProduct_counted
    (fun n hn h => ⟨trivial, hroom n hn h⟩)
    (fun hnot _ => hfits fun hall => hnot (hall.smith row hrow))
    (g := fun term =>
      periods.generators.homology.transport.outgoingSmith.witness.rightInverse.value row term *
        chain.coefficient term) ?_) ?_
  · intro term hterm
    rw [ExactIntegerMatrix.value_of_lt (hinverseRows ▸ hrow) (hinverseCols ▸ hterm)]
  · rintro ⟨coordinate, count⟩ ⟨hcoordinate, hcounted⟩
    dsimp only at hcoordinate hcounted
    rw [zero_add] at hcoordinate
    subst hcoordinate
    apply Within.bind (refuseWhen_within fun hne =>
      hne.2 (smithValue_eq_zero h hcycle hne.1))
    intro _ _
    exact Within.ok ⟨hlisted.step hrow, hcounted⟩

/-- Quotients and class values of the coordinates passed. -/
structure Reduced (report : VerifiedTerminalRelativeHomology) (chain : IntegralRelativeChain)
    (count : ℕ) (passed : List ℕ) (values : ClassValues) : Prop where
  quotients_length : values.diagonalQuotients.length = report.boundaryRank
  classes_length : values.classValues.length = count
  quotients : ∀ index ∈ passed, index < report.boundaryRank →
    values.diagonalQuotients.getD index 0 = quotientValue report chain index
  classes : ∀ index ∈ passed, report.torsionStart ≤ index →
    values.classValues.getD (index - report.torsionStart) 0 =
      classValue report chain (index - report.torsionStart)

section Reduced

variable {report : VerifiedTerminalRelativeHomology} {count index : ℕ} {passed : List ℕ}
  {values : ClassValues}

/-- A coordinate below the boundary rank has a quotient, and a residue if it is torsion. -/
theorem Reduced.below (hreduced : Reduced report chain count passed values)
    (hlt : index < report.boundaryRank)
    (hcount : report.torsionStart ≤ index → index - report.torsionStart < count)
    (hclass : report.torsionStart ≤ index →
      classValue report chain (index - report.torsionStart) = coordinateValue report chain index %
        report.imageSmith.invariantFactors.getD index 0) :
    Reduced report chain count (passed ++ [index])
      ⟨values.diagonalQuotients.set index (coordinateValue report chain index /
          report.imageSmith.invariantFactors.getD index 0),
        if index ≥ report.torsionStart then
          values.classValues.set (index - report.torsionStart)
            (coordinateValue report chain index %
              report.imageSmith.invariantFactors.getD index 0)
        else values.classValues⟩ := by
  constructor
  case quotients_length => rw [List.length_set, hreduced.quotients_length]
  case classes_length =>
    dsimp only
    split_ifs
    · rw [List.length_set, hreduced.classes_length]
    · exact hreduced.classes_length
  case quotients =>
    intro other hother hrank
    rw [getD_set (hreduced.quotients_length ▸ hlt)]
    split_ifs with heq
    · rw [heq]
      rfl
    · rcases List.mem_append.1 hother with hother | hother
      · exact hreduced.quotients other hother hrank
      · exact absurd (List.mem_singleton.1 hother) heq
  case classes =>
    intro other hother hle
    dsimp only
    split_ifs with hge
    · rw [getD_set (by rw [hreduced.classes_length]; exact hcount hge)]
      split_ifs with heq
      · rw [show other = index by omega, hclass hge]
      · rcases List.mem_append.1 hother with hother | hother
        · exact hreduced.classes other hother hle
        · exact absurd (by rw [List.mem_singleton.1 hother]) heq
    · rcases List.mem_append.1 hother with hother | hother
      · exact hreduced.classes other hother hle
      · rw [List.mem_singleton.1 hother] at hle
        exact absurd hle hge

/-- A coordinate past the boundary rank is free. -/
theorem Reduced.above (hreduced : Reduced report chain count passed values)
    (hge : ¬ index < report.boundaryRank) (hstart : report.torsionStart ≤ index)
    (hcount : index - report.torsionStart < count)
    (hclass : classValue report chain (index - report.torsionStart) =
      coordinateValue report chain index) :
    Reduced report chain count (passed ++ [index])
      { values with
        classValues := values.classValues.set (index - report.torsionStart)
          (coordinateValue report chain index) } := by
  constructor
  case quotients_length => exact hreduced.quotients_length
  case classes_length => rw [List.length_set, hreduced.classes_length]
  case quotients =>
    intro other hother hrank
    rcases List.mem_append.1 hother with hother | hother
    · exact hreduced.quotients other hother hrank
    · rw [List.mem_singleton.1 hother] at hrank
      exact absurd hrank hge
  case classes =>
    intro other hother hle
    dsimp only
    rw [getD_set (by rw [hreduced.classes_length]; exact hcount)]
    split_ifs with heq
    · rw [show other = index by omega, hclass]
    · rcases List.mem_append.1 hother with hother | hother
      · exact hreduced.classes other hother hle
      · exact absurd (by rw [List.mem_singleton.1 hother]) heq

end Reduced

theorem presentationCoordinate_within {index : ℕ} (h : Bound periods.generators.homology)
    (hgenerated : Generated periods.generators.homology periods.generators) {passed : List ℕ}
    {smithCoordinates : List ℤ} {values : ClassValues}
    (hsmith : Listed periods.generators.homology.transport.outgoing.matrix.cols
      (smithValue periods.generators.homology chain)
      (List.range periods.generators.homology.transport.outgoing.matrix.cols) smithCoordinates)
    (hreduced : Reduced periods.generators.homology chain periods.generators.generatorCount passed
      values)
    (hindex : index < periods.generators.homology.cycleRank)
    (hfits : ¬ ArithmeticFits machine periods chain → overflows)
    (hroom : ∀ n ≤ completed + periods.generators.homology.cycleRank, machine.count n = false → starved) :
    Within (ClassRefusal unbound acyclic overflows starved interrupted)
      (fun r => Reduced periods.generators.homology chain periods.generators.generatorCount
        (passed ++ [index]) r.1 ∧ r.2 = completed + periods.generators.homology.cycleRank)
      (presentationCoordinate periods
        (homologyClassRun machine checkpoint workItems scalarOperations) smithCoordinates values
        index completed) := by
  obtain ⟨-, -, hleftRows, hleftCols⟩ := h.inverseShapes
  have hkernel := h.kernelRows
  have hstart := h.divided.start
  have hcount := hgenerated.generatorCount_eq h
  have hfree := hgenerated.freeCount h
  have htorsion := hgenerated.torsionCount_eq
  unfold presentationCoordinate
  refine Within.bind (StageRun.innerProduct_counted
    (fun n hn h => ⟨trivial, hroom n hn h⟩)
    (fun hnot _ => hfits fun hall => hnot (hall.coordinate index hindex))
    (g := fun term => periods.generators.homology.imageSmith.witness.left.value index term *
      smithValue periods.generators.homology chain
        (periods.generators.homology.transport.outgoingRank + term)) ?_) ?_
  · intro term hterm
    rw [ExactIntegerMatrix.value_of_lt (hleftRows ▸ hindex) (hleftCols ▸ hterm),
      hsmith.getD_eq (by omega)]
  rintro ⟨coordinate, count⟩ ⟨hcoordinate, hcounted⟩
  dsimp only at hcounted
  replace hcoordinate : coordinate = coordinateValue periods.generators.homology chain index :=
    hcoordinate.trans (zero_add _)
  subst hcoordinate
  have hclass : periods.generators.homology.torsionStart ≤ index →
      classValue periods.generators.homology chain
        (index - periods.generators.homology.torsionStart) =
      coordinateValue periods.generators.homology chain index %
        periods.generators.homology.imageSmith.invariantFactors.getD index 0 := by
    intro hle
    rw [classValue, torsion_getD, Nat.add_sub_cancel' hle]
  dsimp only
  split
  case isTrue hlt =>
    apply Within.bind (refuseWhen_within fun hle => absurd (factor_pos h hlt) (not_lt.2 hle))
    intro _ _
    exact Within.ok ⟨hreduced.below hlt (fun hle => by omega) hclass, hcounted⟩
  case isFalse hge =>
    have hplace : periods.generators.torsionCount + index -
        periods.generators.homology.boundaryRank =
        index - periods.generators.homology.torsionStart := by
      omega
    have hnone : periods.generators.homology.imageSmith.invariantFactors.getD index 0 = 0 := by
      rw [List.getD_eq_getElem?_getD, List.getElem?_eq_none, Option.getD_none]
      rw [h.factors, ← h.image.rank]
      exact not_lt.1 hge
    have hfreeClass := hclass (by omega)
    rw [hnone, Int.emod_zero] at hfreeClass
    rw [hplace]
    exact Within.ok ⟨hreduced.above hge (by omega) (by omega) hfreeClass, hcounted⟩

/-- Class values of the whole presentation. -/
theorem Reduced.listed {report : VerifiedTerminalRelativeHomology} {count : ℕ}
    {values : ClassValues} (hcount : report.torsionStart + count = report.cycleRank)
    (h : Reduced report chain count (List.range report.cycleRank) values) :
    Listed count (classValue report chain) (List.range count) values.classValues where
  length_eq := h.classes_length
  values := by
    intro j hj
    have hlt := List.mem_range.1 hj
    have hclass := h.classes (report.torsionStart + j) (List.mem_range.2 (by omega))
      (Nat.le_add_right _ _)
    rwa [Nat.add_sub_cancel_left] at hclass

theorem verifyFreePeriod_within {free : ℕ} (h : Bound periods.generators.homology)
    (hgenerated : Generated periods.generators.homology periods.generators)
    (hpaired : Paired periods.generators periods) {classValues : List ℤ}
    (hvalues : Listed periods.generators.generatorCount
      (classValue periods.generators.homology chain)
      (List.range periods.generators.generatorCount) classValues)
    (hfree : free < periods.generators.freeGeneratorCount)
    (hfits : ¬ ArithmeticFits machine periods chain → overflows)
    (hroom : ∀ n ≤ completed + periods.generators.homology.transport.outgoing.matrix.cols, machine.count n = false → starved) :
    Within (ClassRefusal unbound acyclic overflows starved interrupted)
      (fun r => r.2 = completed + periods.generators.homology.transport.outgoing.matrix.cols)
      (verifyFreePeriod periods chain
        (homologyClassRun machine checkpoint workItems scalarOperations) classValues () free
        completed) := by
  have hstart := h.divided.start
  have hcount := hgenerated.generatorCount_eq h
  have hfreeCount := hgenerated.freeCount h
  have htorsion := hgenerated.torsionCount_eq
  have hplace : periods.generators.homology.boundaryRank + free <
      periods.generators.homology.cycleRank := by
    omega
  have hcoordinate : (presentationRows periods.generators.homology.transport.outgoingSmith
      periods.generators.homology.imageSmith h.kernelRows *ᵥ chain.vector _) ⟨_, hplace⟩ =
      coordinateValue periods.generators.homology chain
        (periods.generators.homology.boundaryRank + free) :=
    coordinateValue_eq h ⟨_, hplace⟩
  unfold verifyFreePeriod
  refine Within.bind (StageRun.innerProduct_counted
    (fun n hn h => ⟨trivial, hroom n hn h⟩)
    (fun hnot _ => hfits fun hall => hnot (hall.period free hfree))
    (g := fun term => dualValue periods.generators.homology term free * chain.coefficient term)
    ?_) ?_
  · intro term hterm
    rw [← hpaired.cocycles.value_eq hterm hfree,
      ExactIntegerMatrix.value_of_lt (hpaired.cocycles.rows_eq ▸ hterm)
        (hpaired.cocycles.cols_eq ▸ hfree)]
  · rintro ⟨actual, count⟩ ⟨hactual, hcounted⟩
    replace hactual := hactual.trans (zero_add _)
    have hnone : periods.generators.homology.torsionInvariantFactors.getD
        (periods.generators.torsionCount + free) 0 = 0 := by
      rw [List.getD_eq_getElem?_getD, List.getElem?_eq_none (by omega), Option.getD_none]
    have hexpected : classValues.getD (periods.generators.torsionCount + free) 0 =
        coordinateValue periods.generators.homology chain
          (periods.generators.homology.boundaryRank + free) := by
      rw [hvalues.getD_eq (by omega), classValue, hnone, Int.emod_zero]
      congr 1
      omega
    have hsum : ∑ term ∈ Finset.range periods.generators.homology.transport.outgoing.matrix.cols,
        dualValue periods.generators.homology term free * chain.coefficient term =
        coordinateValue periods.generators.homology chain
          (periods.generators.homology.boundaryRank + free) := by
      rw [← hcoordinate, Finset.sum_range]
      apply Finset.sum_congr rfl
      intro term _
      rw [← dualValue_eq h ⟨_, hplace⟩ term rfl]
      rfl
    apply Within.bind (refuseWhen_within fun hne =>
      hne (hactual.trans (hsum.trans hexpected.symm)))
    intro _ _
    exact Within.ok hcounted

theorem adjustBoundary_within {row : ℕ} (h : Bound periods.generators.homology)
    {diagonalQuotients passedList : List ℤ} {passed : List ℕ}
    (hquotients : ∀ index < periods.generators.homology.boundaryRank,
      diagonalQuotients.getD index 0 = quotientValue periods.generators.homology chain index)
    (hlisted : Listed periods.generators.homology.transport.incoming.matrix.cols
      (adjustmentValue periods.generators.homology chain) passed passedList)
    (hrow : row < periods.generators.homology.transport.incoming.matrix.cols)
    (hfits : ¬ ArithmeticFits machine periods chain → overflows)
    (hroom : ∀ n ≤ completed + periods.generators.homology.boundaryRank, machine.count n = false → starved) :
    Within (ClassRefusal unbound acyclic overflows starved interrupted)
      (fun r => Listed periods.generators.homology.transport.incoming.matrix.cols
        (adjustmentValue periods.generators.homology chain) (passed ++ [row]) r.1 ∧
        r.2 = completed + periods.generators.homology.boundaryRank)
      (adjustBoundary periods (homologyClassRun machine checkpoint workItems scalarOperations)
        diagonalQuotients passedList row completed) := by
  obtain ⟨hrows, hextent, -⟩ := h.extents
  obtain ⟨-, -, -, -, hrightRows, hrightCols, -, -⟩ := h.shapes
  have hstart := h.divided.start
  unfold adjustBoundary
  refine Within.bind (StageRun.innerProduct_counted
    (fun n hn h => ⟨trivial, hroom n hn h⟩)
    (fun hnot _ => hfits fun hall => hnot (hall.adjustment row hrow))
    (g := fun term => periods.generators.homology.imageSmith.witness.right.value row term *
      quotientValue periods.generators.homology chain term) ?_) ?_
  · intro term hterm
    rw [ExactIntegerMatrix.value_of_lt (by omega) (by omega), hquotients term hterm]
  · rintro ⟨value, count⟩ ⟨hvalue, hcounted⟩
    dsimp only at hvalue hcounted
    rw [zero_add] at hvalue
    subst hvalue
    exact Within.ok ⟨hlisted.step hrow, hcounted⟩

theorem verifyDecomposition_within {row : ℕ} (h : Bound periods.generators.homology)
    (hgenerated : Generated periods.generators.homology periods.generators)
    (hcycle : IsCycle periods.generators.homology chain) {classValues adjustment : List ℤ}
    (hvalues : Listed periods.generators.generatorCount
      (classValue periods.generators.homology chain)
      (List.range periods.generators.generatorCount) classValues)
    (hadjustment : Listed periods.generators.homology.transport.incoming.matrix.cols
      (adjustmentValue periods.generators.homology chain)
      (List.range periods.generators.homology.transport.incoming.matrix.cols) adjustment)
    (hrow : row < periods.generators.homology.transport.outgoing.matrix.cols)
    (hfits : ¬ ArithmeticFits machine periods chain → overflows)
    (hroom : ∀ n ≤ completed + (periods.generators.generatorCount +
        periods.generators.homology.transport.incoming.matrix.cols), machine.count n = false → starved) :
    Within (ClassRefusal unbound acyclic overflows starved interrupted)
      (fun r => r.2 = completed + (periods.generators.generatorCount +
        periods.generators.homology.transport.incoming.matrix.cols))
      (verifyDecomposition periods chain
        (homologyClassRun machine checkpoint workItems scalarOperations) classValues adjustment ()
        row completed) := by
  have hinner := h.inner
  have hcycles := hgenerated.cycles
  have hcols : periods.generators.generatorCount =
      periods.generators.homology.cycleRank - periods.generators.homology.torsionStart :=
    hcycles.cols_eq
  unfold verifyDecomposition
  refine Within.bind (StageRun.innerProduct_counted
    (fun n hn h => ⟨trivial, hroom n (by dsimp only at hn; omega) h⟩)
    (fun hnot _ => hfits fun hall => hnot (hall.combination row hrow))
    (g := fun term => periods.generators.cycleRepresentatives.value row term *
      classValue periods.generators.homology chain term) ?_) ?_
  · intro term hterm
    rw [ExactIntegerMatrix.value_of_lt (hcycles.rows_eq ▸ hrow) hterm, hvalues.getD_eq hterm]
  · rintro state ⟨hstate, hstateCount⟩
    replace hstate := hstate.trans (zero_add _)
    refine Within.bind (StageRun.innerProduct_counted
      (fun n hn h => ⟨trivial, hroom n (by omega) h⟩)
      (fun hnot _ => hfits fun hall => hnot (hstate ▸ hall.boundary row hrow))
      (g := fun term => periods.generators.homology.transport.incoming.matrix.value row term *
        adjustmentValue periods.generators.homology chain term) ?_) ?_
    · intro term hterm
      rw [ExactIntegerMatrix.value_of_lt (by omega) hterm, hadjustment.getD_eq hterm]
    · rintro ⟨actual, count⟩ ⟨hactual, hcounted⟩
      dsimp only at hactual hcounted
      rw [hstate] at hactual
      apply Within.bind (refuseWhen_within fun hne =>
        hne (hactual.trans (decomposition_sum h hgenerated hcycle hrow)))
      intro _ _
      apply Within.ok
      dsimp only at hstateCount ⊢
      omega

/-- The chain belongs to the pair, the phase and the degree of the report. -/
def Binds (report : VerifiedTerminalRelativeHomology) (chain : IntegralRelativeChain) : Prop :=
  chain.pair = report.transport.outgoing.pair ∧ chain.phase = report.transport.outgoing.phase ∧
    chain.degree = report.transport.outgoing.sourceDegree ∧
    chain.coefficients.length = report.transport.outgoing.matrix.cols

/-- What the class of a chain is. -/
structure Classified (periods : VerifiedTerminalRelativeFreeCocyclePeriods)
    (chain : IntegralRelativeChain) (cls : VerifiedTerminalRelativeIntegralHomologyClass) :
    Prop where
  periods_eq : cls.periods = periods
  cycle : IsCycle periods.generators.homology chain
  coordinates : Listed periods.generators.generatorCount
    (classValue periods.generators.homology chain)
    (List.range periods.generators.generatorCount) cls.classCoordinates.entries
  adjustment : Listed periods.generators.homology.transport.incoming.matrix.cols
    (adjustmentValue periods.generators.homology chain)
    (List.range periods.generators.homology.transport.incoming.matrix.cols)
    cls.boundaryAdjustment.entries

theorem preflight_ensures (h : Bound periods.generators.homology)
    (hgenerated : Generated periods.generators.homology periods.generators)
    (hpaired : Paired periods.generators periods)
    (hunbound : ¬ Binds periods.generators.homology chain → unbound)
    (hstarved : ¬ Supplied machine periods budget → starved) :
    Ensures (ClassRefusal unbound acyclic overflows starved interrupted) (fun _ => True)
      (homologyClassPreflight machine periods chain budget) := by
  obtain ⟨hrows, hextent, -⟩ := h.extents
  obtain ⟨hinverseRows, hinverseCols, hleftRows, hleftCols⟩ := h.inverseShapes
  obtain ⟨-, -, -, -, hrightRows, hrightCols, -, -⟩ := h.shapes
  have hkernel := h.kernelRows
  have hstart := h.divided.start
  have hfree := hgenerated.freeCount h
  have hcount := hgenerated.generatorCount_eq h
  have htorsion := hgenerated.torsionCount_eq
  have hroom : classOutput periods ≤ classRetained periods := Nat.le_add_left _ _
  unfold homologyClassPreflight
  dsimp only
  apply Ensures.bind (Ensures.refuseIf fun hne => hunbound fun hbinds => hne hbinds.1)
  intro _ _
  apply Ensures.bind (Ensures.refuseIf fun hne => hunbound fun hbinds => hne hbinds.2.1)
  intro _ _
  apply Ensures.bind (Ensures.refuseIf fun hne => hunbound fun hbinds => hne hbinds.2.2.1)
  intro _ _
  apply Ensures.bind (Ensures.refuseIf fun hne => hunbound fun hbinds => hne hbinds.2.2.2)
  intro _ harity
  apply Ensures.bind (Ensures.refuseIf _)
  · intro _ _
    apply Ensures.bind (exact_classes (checkedExtent_within fun hfalse =>
      ⟨trivial, starved_of_extent hstarved (hroom.trans (Nat.le_add_right _ _)) hfalse⟩))
    rintro _ rfl
    apply Ensures.bind (Ensures.refuseIf fun hover =>
      hstarved fun hsupplied => absurd hsupplied.output (not_le.2 hover))
    intro _ _
    apply Ensures.bind (exact_classes (checkedExtent_within fun hfalse =>
      ⟨trivial, starved_of_extent hstarved (Nat.le_add_left _ _) hfalse⟩))
    rintro _ rfl
    apply Ensures.bind (Ensures.refuseIf fun hover =>
      ⟨trivial, hstarved fun hsupplied => absurd hsupplied.workspace (not_le.2 hover)⟩)
    intro _ _
    have htotal : periods.retainedEntries + [chain.coefficients.length, classOutput periods].sum =
        classRetained periods := by
      rw [not_not.1 harity, List.sum_cons, List.sum_cons, List.sum_nil, Nat.add_zero,
        ← Nat.add_assoc]
      rfl
    apply Ensures.bind (exact_classes (checkedTotal_within fun n hn hfalse =>
      ⟨trivial, starved_of_extent hstarved (by omega) hfalse⟩))
    rintro _ rfl
    rw [htotal]
    apply Ensures.bind (Ensures.refuseIf fun hover =>
      ⟨trivial, hstarved fun hsupplied => absurd hsupplied.retained (not_le.2 hover)⟩)
    intro _ _
    apply Ensures.bind (exact_classes (plannedScalar_within hstarved))
    rintro _ rfl
    apply Ensures.bind (Ensures.refuseIf fun hover =>
      ⟨trivial, hstarved fun hsupplied => absurd hsupplied.scalar (not_le.2 hover)⟩)
    intro _ _
    apply Ensures.bind (exact_classes (plannedWorkItems_within hstarved))
    intro workItems _
    exact Ensures.pure trivial
  · intro hshapes
    apply hshapes
    have hcycleRows := hgenerated.cycles.rows_eq
    have hcocycleRows := hpaired.cocycles.rows_eq
    have hcocycleCols := hpaired.cocycles.cols_eq
    have hlength : periods.generators.homology.imageSmith.invariantFactors.length =
        periods.generators.homology.boundaryRank := by
      rw [h.factors]
      exact h.image.rank.symm
    have hrank : periods.generators.homology.transport.outgoing.matrix.cols =
        periods.generators.homology.transport.chainExtent := rfl
    refine ⟨h.inner.symm, by omega, rfl, by omega, by omega, by omega, rfl, hlength, by omega,
      by omega, by omega, by omega, hinverseRows, hinverseCols, hleftRows, hleftCols, hrightRows,
      hrightCols, hcycleRows, rfl, hcocycleRows, hcocycleCols⟩

theorem stages_ensures (h : Bound periods.generators.homology)
    (hgenerated : Generated periods.generators.homology periods.generators)
    (hpaired : Paired periods.generators periods)
    (hacyclic : ¬ IsCycle periods.generators.homology chain → acyclic)
    (hfits : ¬ ArithmeticFits machine periods chain → overflows)
    (hstarved : ¬ Supplied machine periods budget → starved)
    (hinterrupted : (∃ seen phase, checkpoint seen phase = false) → interrupted)
    (retainedEntries : ℕ) :
    Ensures (ClassRefusal unbound acyclic overflows starved interrupted) (Classified periods chain)
      (homologyClassStages periods chain
        (homologyClassRun machine checkpoint workItems scalarOperations) retainedEntries) := by
  have hcount := hgenerated.generatorCount_eq h
  have hpoll {phase : String} {progress : Progress} :
      Ensures (ClassRefusal unbound acyclic overflows starved interrupted) (fun _ => True)
        ((homologyClassRun machine checkpoint workItems scalarOperations).poll phase progress) :=
    Ensures.poll_of fun seen hfalse => hinterrupted ⟨seen, phase, hfalse⟩
  have hreserve {phase : String} {entries : ℕ}
      (hn : entries ≤ classOutput periods + classWorkspace periods) :
      Ensures (ClassRefusal unbound acyclic overflows starved interrupted) (fun _ => True)
        (exact (machine.reserveExact phase entries)) :=
    exact_classes (reserveExact_within fun hfalse =>
      ⟨trivial, starved_of_allocation hstarved hn hfalse⟩)
  have hroom {n : ℕ} (hn : n ≤ classTerms periods + classItems periods)
      (hfalse : machine.count n = false) : starved :=
    starved_of_count hstarved hn hfalse
  unfold classOutput classWorkspace at hreserve
  unfold classTerms classItems at hroom
  dsimp only at hroom
  unfold homologyClassStages VerifiedTerminalRelativeKernelTransport.chainExtent
  dsimp only
  apply Ensures.bind hpoll
  intro _ _
  apply Ensures.bind (StageRun.items_forall
    (P := fun row => boundaryValue periods.generators.homology chain row = 0)
    (fun n hn hfalse => ⟨trivial, hroom (by omega) hfalse⟩) (fun hc _ _ _ _ _ => hinterrupted hc)
    fun row hrow completed hplan => verifyClassCycle_within hrow
      (fun hne => hacyclic fun hcycle => hne (isCycle_iff.1 hcycle row hrow)) hfits
      fun n hn hfalse => hroom (by omega) hfalse)
  rintro ⟨_, _⟩ ⟨hboundary, rfl⟩
  have hcycle := isCycle_iff.2 hboundary
  apply Ensures.bind hpoll
  intro _ _
  apply Ensures.bind (hreserve (by omega))
  intro _ _
  apply Ensures.bind (hreserve (by omega))
  intro _ _
  apply Ensures.bind (hreserve (by omega))
  intro _ _
  apply Ensures.bind (hreserve (by omega))
  intro _ _
  apply Ensures.bind (StageRun.items_uniform (I := Listed
      periods.generators.homology.transport.outgoing.matrix.cols
      (smithValue periods.generators.homology chain))
    (fun n hn hfalse => ⟨trivial, hroom (by omega) hfalse⟩) (fun hc _ _ _ _ _ => hinterrupted hc)
    Listed.zeros fun passed row later list completed hplaces hlisted hplan =>
      smithCoordinate_within h hcycle hlisted (mem_range_of_append hplaces) hfits
        fun n hn hfalse => hroom (by omega) hfalse)
  rintro ⟨smithCoordinates, _⟩ ⟨hsmith, rfl⟩
  apply Ensures.bind (StageRun.items_uniform (I := Reduced periods.generators.homology chain
      periods.generators.generatorCount)
    (fun n hn hfalse => ⟨trivial, hroom (by omega) hfalse⟩) (fun hc _ _ _ _ _ => hinterrupted hc)
    ⟨List.length_replicate, List.length_replicate, fun _ hmem => absurd hmem List.not_mem_nil,
      fun _ hmem => absurd hmem List.not_mem_nil⟩
    fun passed index later values completed hplaces hreduced hplan =>
      presentationCoordinate_within h hgenerated hsmith hreduced (mem_range_of_append hplaces)
        hfits fun n hn hfalse => hroom (by omega) hfalse)
  rintro ⟨values, _⟩ ⟨hreduced, rfl⟩
  have hvalues := hreduced.listed hcount
  apply Ensures.bind (StageRun.items_forall (P := fun _ => True)
    (fun n hn hfalse => ⟨trivial, hroom (by omega) hfalse⟩) (fun hc _ _ _ _ _ => hinterrupted hc)
    fun free hfree completed hplan => (verifyFreePeriod_within h hgenerated hpaired hvalues hfree
      hfits fun n hn hfalse => hroom (by omega) hfalse).imp fun _ hcounted => ⟨trivial, hcounted⟩)
  rintro ⟨_, _⟩ ⟨-, rfl⟩
  apply Ensures.bind (StageRun.items_uniform (I := Listed
      periods.generators.homology.transport.incoming.matrix.cols
      (adjustmentValue periods.generators.homology chain))
    (fun n hn hfalse => ⟨trivial, hroom (by omega) hfalse⟩) (fun hc _ _ _ _ _ => hinterrupted hc)
    Listed.zeros fun passed row later list completed hplaces hlisted hplan =>
      adjustBoundary_within h (fun index hindex => hreduced.quotients index
        (List.mem_range.2 (by have := h.divided.start; have := h.extents.1; omega)) hindex) hlisted
        (mem_range_of_append hplaces) hfits fun n hn hfalse => hroom (by omega) hfalse)
  rintro ⟨adjustment, _⟩ ⟨hadjustment, rfl⟩
  apply Ensures.bind (StageRun.items_forall (P := fun _ => True)
    (fun n hn hfalse => ⟨trivial, hroom (by omega) hfalse⟩) (fun hc _ _ _ _ _ => hinterrupted hc)
    fun row hrow completed hplan => (verifyDecomposition_within h hgenerated hcycle hvalues
      hadjustment hrow hfits fun n hn hfalse => hroom (by omega) hfalse).imp
        fun _ hcounted => ⟨trivial, hcounted⟩)
  rintro ⟨_, _⟩ ⟨-, rfl⟩
  apply Ensures.bind hpoll
  intro _ _
  exact Ensures.pure ⟨rfl, hcycle, hvalues, hadjustment⟩

theorem class_ensures (h : Bound periods.generators.homology)
    (hgenerated : Generated periods.generators.homology periods.generators)
    (hpaired : Paired periods.generators periods)
    (hunbound : ¬ Binds periods.generators.homology chain → unbound)
    (hacyclic : ¬ IsCycle periods.generators.homology chain → acyclic)
    (hfits : ¬ ArithmeticFits machine periods chain → overflows)
    (hstarved : ¬ Supplied machine periods budget → starved)
    (hinterrupted : (∃ seen phase, checkpoint seen phase = false) → interrupted) :
    Ensures (ClassRefusal unbound acyclic overflows starved interrupted) (Classified periods chain)
      (verifyTerminalRelativeIntegralHomologyClassWithCheckpoint machine periods chain budget
        checkpoint) := by
  unfold verifyTerminalRelativeIntegralHomologyClassWithCheckpoint
  apply Ensures.bind (preflight_ensures h hgenerated hpaired hunbound hstarved)
  rintro ⟨retainedEntries, scalarOperations, workItems⟩ _
  exact stages_ensures h hgenerated hpaired hacyclic hfits hstarved hinterrupted retainedEntries

end Stages

section Classification

open Matrix

variable {periods : VerifiedTerminalRelativeFreeCocyclePeriods}
  {chain chain' chain'' : IntegralRelativeChain}
  {cls cls' cls'' : VerifiedTerminalRelativeIntegralHomologyClass}

theorem Listed.getElem_eq {n j : ℕ} {f : ℕ → ℤ} {list : List ℤ}
    (h : Listed n f (List.range n) list) (hj : j < list.length) : list[j] = f j := by
  rw [← h.getD_eq (h.length_eq ▸ hj), List.getD_eq_getElem?_getD, List.getElem?_eq_getElem hj,
    Option.getD_some]

theorem Listed.eq_iff {n : ℕ} {f f' : ℕ → ℤ} {list list' : List ℤ}
    (h : Listed n f (List.range n) list) (h' : Listed n f' (List.range n) list') :
    list = list' ↔ ∀ j < n, f j = f' j := by
  constructor
  · rintro rfl j hj
    rw [← h.getD_eq hj, h'.getD_eq hj]
  · intro hall
    apply List.ext_getElem (h.length_eq.trans h'.length_eq.symm)
    intro j hj hj'
    rw [h.getElem_eq hj, h'.getElem_eq hj']
    exact hall j (h.length_eq ▸ hj)

theorem Listed.all_zero_iff {n : ℕ} {f : ℕ → ℤ} {list : List ℤ}
    (h : Listed n f (List.range n) list) :
    (list.all fun value => value = 0) = true ↔ ∀ j < n, f j = 0 := by
  rw [List.all_eq_true]
  constructor
  · intro hall j hj
    have hlt : j < list.length := h.length_eq.symm ▸ hj
    have hzero := of_decide_eq_true (hall _ (List.getElem_mem hlt))
    rwa [h.getElem_eq hlt] at hzero
  · intro hall value hvalue
    obtain ⟨j, hj, rfl⟩ := List.mem_iff_getElem.1 hvalue
    apply decide_eq_true
    rw [h.getElem_eq hj]
    exact hall j (h.length_eq ▸ hj)

/-- The chain without coefficients. -/
def zeroChain : IntegralRelativeChain := ⟨[], "", 0, []⟩

theorem zeroChain_vector (n : ℕ) : zeroChain.vector n = 0 := by
  funext i
  rfl

theorem zeroChain_isCycle (report : VerifiedTerminalRelativeHomology) :
    IsCycle report zeroChain := by
  rw [IsCycle, zeroChain_vector, mulVec_zero]

theorem zeroChain_classValue (report : VerifiedTerminalRelativeHomology) (j : ℕ) :
    classValue report zeroChain j = 0 := by
  have hsmith : ∀ row, smithValue report zeroChain row = 0 := by
    intro row
    apply Finset.sum_eq_zero
    intro term _
    exact mul_zero _
  have hcoordinate : coordinateValue report zeroChain (report.torsionStart + j) = 0 := by
    apply Finset.sum_eq_zero
    intro term _
    rw [hsmith, mul_zero]
  rw [classValue, hcoordinate, Int.zero_emod]

theorem classValue_add {report : VerifiedTerminalRelativeHomology}
    (hsum : ∀ i, chain''.coefficient i = chain.coefficient i + chain'.coefficient i) (j : ℕ) :
    classValue report chain'' j = (classValue report chain j + classValue report chain' j) %
      report.torsionInvariantFactors.getD j 0 := by
  have hsmith : ∀ row, smithValue report chain'' row =
      smithValue report chain row + smithValue report chain' row := by
    intro row
    unfold smithValue
    rw [← Finset.sum_add_distrib]
    apply Finset.sum_congr rfl
    intro term _
    rw [hsum, mul_add]
  have hcoordinate : ∀ index, coordinateValue report chain'' index =
      coordinateValue report chain index + coordinateValue report chain' index := by
    intro index
    unfold coordinateValue
    rw [← Finset.sum_add_distrib]
    apply Finset.sum_congr rfl
    intro term _
    rw [hsmith, mul_add]
  unfold classValue
  rw [hcoordinate, Int.add_emod]

theorem Classified.residue_bounds (h : Bound periods.generators.homology)
    (hgenerated : Generated periods.generators.homology periods.generators)
    (hclass : Classified periods chain cls) {j : ℕ}
    (hj : j < periods.generators.homology.torsionInvariantFactors.length) :
    0 ≤ cls.classCoordinates.entries.getD j 0 ∧ cls.classCoordinates.entries.getD j 0 <
      periods.generators.homology.torsionInvariantFactors.getD j 0 := by
  obtain ⟨hrows, -, -⟩ := h.extents
  have hcount := hgenerated.generatorCount_eq h
  have horder : 1 < periods.generators.homology.torsionInvariantFactors.getD j 0 := by
    rw [List.getD_eq_getElem?_getD, List.getElem?_eq_getElem hj, Option.getD_some]
    exact (h.divided.torsion_chain h.image rfl).1 _ (List.getElem_mem hj)
  rw [hclass.coordinates.getD_eq (by omega), classValue]
  exact ⟨Int.emod_nonneg _ (by omega), Int.emod_lt_of_pos _ (by omega)⟩

theorem Classified.coordinates_eq_iff (h : Bound periods.generators.homology)
    (hgenerated : Generated periods.generators.homology periods.generators)
    (hclass : Classified periods chain cls) (hclass' : Classified periods chain' cls') :
    cls.classCoordinates.entries = cls'.classCoordinates.entries ↔
      ∃ y, periods.generators.homology.transport.incoming.matrix.toMatrix
          periods.generators.homology.transport.outgoing.matrix.cols
          periods.generators.homology.transport.incoming.matrix.cols *ᵥ y =
        chain.vector _ - chain'.vector _ := by
  rw [hclass.coordinates.eq_iff hclass'.coordinates]
  exact classValue_eq_iff h hgenerated hclass.cycle hclass'.cycle

theorem Classified.zero_iff (h : Bound periods.generators.homology)
    (hgenerated : Generated periods.generators.homology periods.generators)
    (hclass : Classified periods chain cls) : cls.representsZeroClass = true ↔
      ∃ y, periods.generators.homology.transport.incoming.matrix.toMatrix
          periods.generators.homology.transport.outgoing.matrix.cols
          periods.generators.homology.transport.incoming.matrix.cols *ᵥ y = chain.vector _ := by
  have hzero := classValue_eq_iff h hgenerated hclass.cycle
    (zeroChain_isCycle periods.generators.homology)
  rw [zeroChain_vector, sub_zero] at hzero
  rw [← hzero]
  simp only [zeroChain_classValue]
  exact hclass.coordinates.all_zero_iff

theorem Classified.filling (h : Bound periods.generators.homology)
    (hgenerated : Generated periods.generators.homology periods.generators)
    (hclass : Classified periods chain cls) (hzero : cls.representsZeroClass = true) :
    (periods.generators.homology.transport.incoming.matrix.toMatrix
        periods.generators.homology.transport.outgoing.matrix.cols
        periods.generators.homology.transport.incoming.matrix.cols *ᵥ
      fun i => cls.boundaryAdjustment.entries.getD i 0) = chain.vector _ := by
  have hvalues := hclass.coordinates.all_zero_iff.1 hzero
  funext row
  have hdecomposition := decomposition_sum h hgenerated hclass.cycle row.2
  have hgenerators : ∑ term ∈ Finset.range periods.generators.generatorCount,
      periods.generators.cycleRepresentatives.value row term *
        classValue periods.generators.homology chain term = 0 := by
    apply Finset.sum_eq_zero
    intro term hterm
    rw [hvalues term (Finset.mem_range.1 hterm), mul_zero]
  rw [hgenerators, zero_add, Finset.sum_range] at hdecomposition
  refine Eq.trans ?_ hdecomposition
  simp only [mulVec, dotProduct]
  apply Finset.sum_congr rfl
  intro term _
  rw [hclass.adjustment.getD_eq term.2]
  rfl

/-- A class that the code returns for a chain, under some limits. -/
def Returns (periods : VerifiedTerminalRelativeFreeCocyclePeriods) (chain : IntegralRelativeChain)
    (cls : VerifiedTerminalRelativeIntegralHomologyClass) : Prop :=
  ∃ machine budget checkpoint seen last,
    verifyTerminalRelativeIntegralHomologyClassWithCheckpoint machine periods chain budget
      checkpoint seen = .ok (cls, last)

theorem Returns.classified (h : Bound periods.generators.homology)
    (hgenerated : Generated periods.generators.homology periods.generators)
    (hpaired : Paired periods.generators periods) (hreturns : Returns periods chain cls) :
    Classified periods chain cls := by
  obtain ⟨machine, budget, checkpoint, seen, last, hok⟩ := hreturns
  have hensures : Ensures (ClassRefusal True True True True True) (Classified periods chain)
      (verifyTerminalRelativeIntegralHomologyClassWithCheckpoint machine periods chain budget
        checkpoint) :=
    class_ensures h hgenerated hpaired (fun _ => trivial) (fun _ => trivial)
      (fun _ => trivial) (fun _ => trivial) (fun _ => trivial)
  exact hensures.of_ok hok

end Classification

section Report

open Matrix

/-- The classification is exact: whatever the limits and the checkpoints, once the homology,
its generators and its periods were returned, the report presents the homology, every cycle of
the pair whose arithmetic fits is classified unless the resources run short or the checkpoint
cancels, residues are reduced, coordinates decide the class and add up, the zero class is that of
the boundaries and comes with a filling, and no self-check of any stage fails. -/
theorem homology_classification_exact
    {machine machine' machine₁ machine₂ verifier verifier' : Machine}
    {source source' : ExactIntegerMatrix} {witness witness' : SmithNormalFormWitness}
    {algebraBudget algebraBudget' : ExactAlgebraBudget}
    {smith imageSmith : VerifiedSmithNormalForm}
    {outgoing incoming : TerminalRelativeBoundaryMatrix} {kernelBudget : KernelCoordinateBudget}
    {budget : HomologyDecompositionBudget} {generatorBudget : HomologyGeneratorBudget}
    {cocycleBudget : HomologyCocycleBudget}
    {checkpoint checkpoint' checkpoint₁ checkpoint₂ : Checkpoint}
    {seen seen' seen₁ seen₂ last last' last₁ last₂ : List String}
    {transport : VerifiedTerminalRelativeKernelTransport}
    {report : VerifiedTerminalRelativeHomology}
    {generators : VerifiedTerminalRelativeHomologyGenerators}
    {periods : VerifiedTerminalRelativeFreeCocyclePeriods}
    (hsmith : verifier.verifySmithNormalForm source witness algebraBudget = .ok smith)
    (htransport : verifyTerminalRelativeKernelTransportWithCheckpoint machine outgoing incoming
      smith kernelBudget checkpoint seen = .ok (transport, last))
    (himage : verifier'.verifySmithNormalForm source' witness' algebraBudget' = .ok imageSmith)
    (hreport : verifyTerminalRelativeHomologyWithCheckpoint machine' transport imageSmith budget
      checkpoint' seen' = .ok (report, last'))
    (hgenerators : verifyTerminalRelativeHomologyGeneratorsWithCheckpoint machine₁ report
      generatorBudget checkpoint₁ seen₁ = .ok (generators, last₁))
    (hperiods : verifyTerminalRelativeFreeCocyclePeriodsWithCheckpoint machine₂ generators
      cocycleBudget checkpoint₂ seen₂ = .ok (periods, last₂)) :
    Nonempty (Homology (outgoing.matrix.toMatrix outgoing.matrix.rows outgoing.matrix.cols)
        (incoming.matrix.toMatrix outgoing.matrix.cols incoming.matrix.cols) ≃+
      (∀ j, ZMod (report.torsionInvariantFactors.get j).natAbs) × (Fin report.freeRank → ℤ)) ∧
    (∀ chain, Binds report chain →
      outgoing.matrix.toMatrix outgoing.matrix.rows outgoing.matrix.cols *ᵥ chain.vector _ = 0 →
      ∀ machine, ArithmeticFits machine periods chain → ∀ budget checkpoint seen,
        (∀ error, verifyTerminalRelativeIntegralHomologyClassWithCheckpoint machine periods chain
            budget checkpoint seen = .error error →
          ClassRefusal False False False (¬ Supplied machine periods budget)
            (∃ seen phase, checkpoint seen phase = false) error) ∧
        (Supplied machine periods budget → (∀ seen phase, checkpoint seen phase = true) →
          ∃ cls last, verifyTerminalRelativeIntegralHomologyClassWithCheckpoint machine periods
            chain budget checkpoint seen = .ok (cls, last))) ∧
    (∀ chain cls, Returns periods chain cls → ∀ j < report.torsionInvariantFactors.length,
      0 ≤ cls.classCoordinates.entries.getD j 0 ∧
        cls.classCoordinates.entries.getD j 0 < report.torsionInvariantFactors.getD j 0) ∧
    (∀ chain chain' cls cls', Returns periods chain cls → Returns periods chain' cls' →
      (cls.classCoordinates.entries = cls'.classCoordinates.entries ↔
        ∃ y, incoming.matrix.toMatrix outgoing.matrix.cols incoming.matrix.cols *ᵥ y =
          chain.vector _ - chain'.vector _)) ∧
    (∀ chain chain' chain'' cls cls' cls'', Returns periods chain cls →
      Returns periods chain' cls' → Returns periods chain'' cls'' →
      (∀ i, chain''.coefficient i = chain.coefficient i + chain'.coefficient i) →
      ∀ j < generators.generatorCount, cls''.classCoordinates.entries.getD j 0 =
        if j < report.torsionInvariantFactors.length then
          (cls.classCoordinates.entries.getD j 0 + cls'.classCoordinates.entries.getD j 0) %
            report.torsionInvariantFactors.getD j 0
        else cls.classCoordinates.entries.getD j 0 + cls'.classCoordinates.entries.getD j 0) ∧
    (∀ chain cls, Returns periods chain cls →
      (cls.representsZeroClass = true ↔
        ∃ y, incoming.matrix.toMatrix outgoing.matrix.cols incoming.matrix.cols *ᵥ y =
          chain.vector _) ∧
      (cls.representsZeroClass = true →
        (incoming.matrix.toMatrix outgoing.matrix.cols incoming.matrix.cols *ᵥ
          fun i => cls.boundaryAdjustment.entries.getD i 0) = chain.vector _)) ∧
    (∀ machine budget checkpoint seen error,
      verifyTerminalRelativeHomologyGeneratorsWithCheckpoint machine report budget checkpoint seen =
        .error error → OutsideSelfChecks error) ∧
    (∀ machine budget checkpoint seen error,
      verifyTerminalRelativeFreeCocyclePeriodsWithCheckpoint machine generators budget checkpoint
        seen = .error error → OutsideSelfChecks error) ∧
    ∀ machine chain budget checkpoint seen error,
      verifyTerminalRelativeIntegralHomologyClassWithCheckpoint machine periods chain budget
        checkpoint seen = .error error → OutsideSelfChecks error := by
  obtain ⟨hbound, rfl, rfl⟩ := bound_of_returned hsmith htransport himage hreport
  have hgenerated : Generated report generators :=
    (generators_ensures hbound generatorBudget).of_ok hgenerators
  obtain rfl := hgenerated.homology_eq
  have hpaired : Paired generators periods :=
    (periods_ensures hbound hgenerated cocycleBudget).of_ok hperiods
  obtain rfl := hpaired.generators_eq
  have hclassified : ∀ {chain cls}, Returns periods chain cls → Classified periods chain cls :=
    fun hreturns => hreturns.classified hbound hgenerated hpaired
  refine ⟨hbound.splits, ?_, ?_, ?_, ?_, ?_, ?_, ?_, ?_⟩
  · intro chain hbinds hcycle machine hfits budget checkpoint seen
    have hensures : Ensures (ClassRefusal False False False (¬ Supplied machine periods budget)
        (∃ seen phase, checkpoint seen phase = false)) (Classified periods chain)
        (verifyTerminalRelativeIntegralHomologyClassWithCheckpoint machine periods chain budget
          checkpoint) :=
      class_ensures hbound hgenerated hpaired (absurd hbinds) (absurd hcycle) (absurd hfits) id id
    refine ⟨fun error herror => hensures.of_error herror, fun hsupplied hgoes => ?_⟩
    have hnone : ∀ error, ¬ ClassRefusal False False False (¬ Supplied machine periods budget)
        (∃ seen phase, checkpoint seen phase = false) error :=
      not_classRefusal id id id (not_not.2 hsupplied) fun ⟨seen, phase, hfalse⟩ =>
        Bool.false_ne_true (hfalse.symm.trans (hgoes seen phase))
    obtain ⟨cls, last, hok, -⟩ := hensures.exists_ok hnone seen
    exact ⟨cls, last, hok⟩
  · intro chain cls hreturns j hj
    exact (hclassified hreturns).residue_bounds hbound hgenerated hj
  · intro chain chain' cls cls' hreturns hreturns'
    exact (hclassified hreturns).coordinates_eq_iff hbound hgenerated (hclassified hreturns')
  · intro chain chain' chain'' cls cls' cls'' hreturns hreturns' hreturns'' hsum j hj
    rw [(hclassified hreturns).coordinates.getD_eq hj,
      (hclassified hreturns').coordinates.getD_eq hj,
      (hclassified hreturns'').coordinates.getD_eq hj, classValue_add hsum]
    split_ifs with htorsion
    · rfl
    · rw [List.getD_eq_getElem?_getD, List.getElem?_eq_none (not_lt.1 htorsion), Option.getD_none,
        Int.emod_zero]
  · intro chain cls hreturns
    exact ⟨(hclassified hreturns).zero_iff hbound hgenerated,
      (hclassified hreturns).filling hbound hgenerated⟩
  · intro machine budget checkpoint seen error herror
    exact (generators_ensures hbound budget).of_error herror
  · intro machine budget checkpoint seen error herror
    exact (periods_ensures hbound hgenerated budget).of_error herror
  · intro machine chain budget checkpoint seen error herror
    have hensures : Ensures (ClassRefusal True True True True True) (Classified periods chain)
        (verifyTerminalRelativeIntegralHomologyClassWithCheckpoint machine periods chain budget
          checkpoint) :=
      class_ensures hbound hgenerated hpaired (fun _ => trivial) (fun _ => trivial)
        (fun _ => trivial) (fun _ => trivial) (fun _ => trivial)
    have hrefusal := hensures.of_error herror
    cases error <;> first | exact hrefusal.elim | trivial

end Report

def loopPeriods : VerifiedTerminalRelativeFreeCocyclePeriods :=
  ⟨loopGenerators, .zeroed 2 0, .zeroed 1 0, 0, 0, 52⟩

/-- The first loop. -/
def loopChain : IntegralRelativeChain := ⟨[], "a", 1, [1, 0]⟩

def loopClass : VerifiedTerminalRelativeIntegralHomologyClass :=
  ⟨loopPeriods, loopChain, columnOf [1], columnOf [1, 0], 8, 18, 57⟩

theorem loopChain_fits :
    ArithmeticFits (.word fun _ _ => true) loopPeriods loopChain := by
  constructor <;> unfold Fits <;> decide +kernel

theorem loopPeriods_supplied :
    Supplied (.word fun _ _ => true) loopPeriods ⟨3, 57, 4, 18⟩ where
  output := by decide
  workspace := by decide
  retained := by decide
  scalar := by decide
  extents := by decide +kernel
  counts := by decide +kernel
  allocates _ _ _ := rfl

/-- The word machine classifies the first loop, which bounds nothing. -/
theorem homology_classification_loops :
    (∃ cls last, verifyTerminalRelativeIntegralHomologyClassWithCheckpoint
      (.word fun _ _ => true) loopPeriods loopChain ⟨3, 57, 4, 18⟩ (fun _ _ => true) [] =
        .ok (cls, last)) ∧
    ¬ ∃ y, (loopFaces.matrix.toMatrix 2 2).mulVec y = loopChain.vector 2 := by
  obtain ⟨last, htransport⟩ := exists_last loopTransport_returned
  obtain ⟨last', hreport⟩ := exists_last loopReport_returned
  obtain ⟨last₁, hgenerators⟩ := exists_last loopGenerators_returned
  obtain ⟨last₂, hperiods⟩ := exists_last (show
    (verifyTerminalRelativeFreeCocyclePeriodsWithCheckpoint .unbounded loopGenerators ⟨0, 52, 0⟩
      (fun _ _ => true) []).map Prod.fst = .ok loopPeriods by rfl)
  obtain ⟨last₃, hclass⟩ := exists_last (show
    (verifyTerminalRelativeIntegralHomologyClassWithCheckpoint .unbounded loopPeriods loopChain
      ⟨3, 57, 4, 18⟩ (fun _ _ => true) []).map Prod.fst = .ok loopClass by rfl)
  have hexact := homology_classification_exact loopSmith_verified htransport
    loopImageSmith_verified hreport hgenerators hperiods
  constructor
  · have hcycle : (loopEdges.matrix.toMatrix 0 2).mulVec (loopChain.vector 2) = 0 :=
      Subsingleton.elim _ _
    exact (hexact.2.1 loopChain ⟨rfl, rfl, rfl, rfl⟩ hcycle _ loopChain_fits ⟨3, 57, 4, 18⟩ _ _).2
      loopPeriods_supplied fun _ _ => rfl
  · have hreturns : Returns loopPeriods loopChain loopClass := ⟨_, _, _, _, _, hclass⟩
    have hzero := (hexact.2.2.2.2.2.1 loopChain loopClass hreturns).1
    intro hboundary
    have hrepresents : loopClass.representsZeroClass = true := hzero.2 hboundary
    cases hrepresents

end FrankenSim.Relative
