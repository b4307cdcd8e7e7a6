import FrankenSim.Relative.Generators

/-!
# Periods of the free generators

Integer cocycles are lifted from the free rows of the presentation and checked to vanish on
boundaries and to be dual to the free generators. The checks never fail.
-/
namespace FrankenSim.Relative

open Library Library.Polled Smith

/-- Limits of the cocycles. -/
structure HomologyCocycleBudget where
  maxOutputEntries : ℕ
  maxRetainedEntries : ℕ
  maxScalarOperations : ℕ

structure VerifiedTerminalRelativeFreeCocyclePeriods where
  generators : VerifiedTerminalRelativeHomologyGenerators
  cocycleRepresentatives : ExactIntegerMatrix
  periodPairing : ExactIntegerMatrix
  workItems : ℕ
  scalarOperations : ℕ
  retainedEntries : ℕ

section Cocycles

variable (machine : Machine)

def plannedHomologyCocycleScalarOperations (chainExtent incomingCols cycleRank generatorCount
    freeCount : ℕ) : Except IntegralTopologyError ℕ := do
  let lift ← checkedHomologyGeneratorPlanProduct machine [chainExtent, cycleRank, freeCount]
    "terminal-relative free-cocycle lift scalar operations"
  let cocycleChecks ← checkedHomologyGeneratorPlanProduct machine
    [incomingCols, chainExtent, freeCount]
    "terminal-relative cocycle-check scalar operations"
  let periodChecks ← checkedHomologyGeneratorPlanProduct machine
    [generatorCount, chainExtent, freeCount]
    "terminal-relative period-check scalar operations"
  plannedTotal machine "terminal-relative free-cocycle scalar operations"
    [lift, cocycleChecks, periodChecks]

def plannedHomologyCocycleWorkItems (chainExtent incomingCols generatorCount freeCount : ℕ) :
    Except IntegralTopologyError ℕ := do
  let cocycleOutput ← checkedHomologyGeneratorPlanProduct machine [chainExtent, freeCount]
    "terminal-relative free-cocycle output work"
  let cocycleChecks ← checkedHomologyGeneratorPlanProduct machine [incomingCols, freeCount]
    "terminal-relative cocycle-check work"
  let periodChecks ← checkedHomologyGeneratorPlanProduct machine [generatorCount, freeCount]
    "terminal-relative period-check work"
  plannedTotal machine "terminal-relative free-cocycle work items"
    [cocycleOutput, cocycleChecks, periodChecks]

def homologyCocycleRun (checkpoint : Checkpoint) (workItems scalarOperations : ℕ) :
    StageRun where
  machine := machine
  checkpoint := checkpoint
  workItems := workItems
  scalarOperations := scalarOperations
  workPhase := "completed terminal-relative free-cocycle work"
  scalarPhase := "completed terminal-relative free-cocycle scalar operations"
  cancelled := .homologyCocycleCancelled

def checkedHomologyCocycleTransposedDot (run : StageRun) (left : ExactIntegerMatrix) (leftCol : ℕ)
    (right : ExactIntegerMatrix) (rightCol : ℕ) (stage : HomologyCocycleStage) (completed : ℕ) :
    Except HomologyError (ℤ × ℕ) := do
  refuseWhen (left.rows ≠ right.rows)
    (.homologyCocycleInvariantLost "free-cocycle verification row extent")
  run.innerProduct left.rows (fun term => left.entry term leftCol)
    (fun term => right.entry term rightCol)
    (.homologyCocycleArithmeticOverflow stage rightCol leftCol) (0, completed)

variable (generators : VerifiedTerminalRelativeHomologyGenerators) (run : StageRun)

/-- A free row of the presentation in the original cochains. -/
def liftCochain (matrix : ExactIntegerMatrix) (place : ℕ × ℕ) (completed : ℕ) :
    Except HomologyError (ExactIntegerMatrix × ℕ) := do
  let (row, cocycle) := place
  let homology := generators.homology
  let transport := homology.transport
  let (sum, completed) ← run.innerProduct homology.cycleRank
    (fun term => transport.outgoingSmith.witness.rightInverse.entry
      (transport.outgoingRank + term) row)
    (fun term => homology.imageSmith.witness.left.entry (homology.boundaryRank + cocycle) term)
    (.homologyCocycleArithmeticOverflow .originalCochainLift row cocycle) (0, completed)
  pure (matrix.setEntry row cocycle sum, completed)

def verifyCocycle (cocycles : ExactIntegerMatrix) (_ : Unit) (place : ℕ × ℕ) (completed : ℕ) :
    Except HomologyError (Unit × ℕ) := do
  let (incomingColumn, cocycle) := place
  let (actual, completed) ← checkedHomologyCocycleTransposedDot run cocycles cocycle
    generators.homology.transport.incoming.matrix incomingColumn .cocycleVerification completed
  refuseWhen (actual ≠ 0)
    (.homologyCocycleVerificationMismatch .cocycleVerification incomingColumn cocycle 0 actual)
  pure ((), completed)

def verifyPeriod (cocycles : ExactIntegerMatrix) (pairing : ExactIntegerMatrix) (place : ℕ × ℕ)
    (completed : ℕ) : Except HomologyError (ExactIntegerMatrix × ℕ) := do
  let (generator, cocycle) := place
  let (actual, completed) ← checkedHomologyCocycleTransposedDot run cocycles cocycle
    generators.cycleRepresentatives generator .periodDualVerification completed
  let expected : ℤ := if generator = generators.torsionCount + cocycle then 1 else 0
  refuseWhen (actual ≠ expected)
    (.homologyCocycleVerificationMismatch .periodDualVerification generator cocycle expected actual)
  pure (pairing.setEntry generator cocycle actual, completed)

end Cocycles

/-- The integer cocycles dual to the free generators. -/
def verifyTerminalRelativeFreeCocyclePeriodsWithCheckpoint (machine : Machine)
    (generators : VerifiedTerminalRelativeHomologyGenerators) (budget : HomologyCocycleBudget)
    (checkpoint : Checkpoint) :
    Polled HomologyError VerifiedTerminalRelativeFreeCocyclePeriods := do
  let homology := generators.homology
  let transport := homology.transport
  let incoming := transport.incoming.matrix
  let outgoingSmith := transport.outgoingSmith
  let imageSmith := homology.imageSmith
  let generatorMatrix := generators.cycleRepresentatives
  let chainExtent := transport.chainExtent
  let incomingCols := incoming.cols
  let outgoingRank := transport.outgoingRank
  let cycleRank := homology.cycleRank
  let boundaryRank := homology.boundaryRank
  let torsionCount := generators.torsionCount
  let generatorCount := generators.generatorCount
  let freeCount := generators.freeGeneratorCount
  refuseIf (¬ (incoming.rows = chainExtent ∧ outgoingRank ≤ chainExtent ∧
      cycleRank = chainExtent - outgoingRank ∧ boundaryRank ≤ cycleRank ∧
      freeCount = cycleRank - boundaryRank ∧ generatorCount = torsionCount + freeCount ∧
      generatorMatrix.rows = chainExtent ∧ generatorMatrix.cols = generatorCount ∧
      transport.outgoing.sourceBasis.length = chainExtent ∧
      outgoingSmith.witness.rightInverse.rows = chainExtent ∧
      outgoingSmith.witness.rightInverse.cols = chainExtent ∧
      imageSmith.witness.left.rows = cycleRank ∧ imageSmith.witness.left.cols = cycleRank))
    (.homologyCocycleInvariantLost "retained free-cocycle shapes and ranks")
  let cocycleEntries ← exact (machine.checkedExtent (chainExtent * freeCount)
    "terminal-relative free-cocycle output entries")
  let pairingEntries ← exact (machine.checkedExtent (generatorCount * freeCount)
    "terminal-relative period-pairing output entries")
  let outputEntries ← exact (machine.checkedExtent (cocycleEntries + pairingEntries)
    "terminal-relative free-cocycle aggregate output entries")
  refuseIf (outputEntries > budget.maxOutputEntries)
    (.homologyCocycleOutputBudgetExceeded outputEntries budget.maxOutputEntries)
  let retainedEntries ← exact (machine.checkedExtent (generators.retainedEntries + outputEntries)
    "terminal-relative free-cocycle retained entries")
  refuseIf (retainedEntries > budget.maxRetainedEntries)
    (.algebra (.retainedEntryBudgetExceeded retainedEntries budget.maxRetainedEntries))
  let scalarOperations ← exact (plannedHomologyCocycleScalarOperations machine chainExtent
    incomingCols cycleRank generatorCount freeCount)
  refuseIf (scalarOperations > budget.maxScalarOperations)
    (.algebra (.scalarWorkBudgetExceeded scalarOperations budget.maxScalarOperations))
  let workItems ← exact (plannedHomologyCocycleWorkItems machine chainExtent incomingCols
    generatorCount freeCount)
  let run := homologyCocycleRun machine checkpoint workItems scalarOperations
  run.poll "terminal-relative free-cocycle preflight" ⟨0, 0⟩
  run.poll "terminal-relative free-cocycle output allocation" ⟨0, 0⟩
  exact (machine.reserveExact "free cocycle representatives" cocycleEntries)
  exact (machine.reserveExact "free period pairing" pairingEntries)
  let (cocycles, progress) ← run.items "terminal-relative original-cocycle lift"
    (grid chainExtent freeCount) (liftCochain generators run)
    (ExactIntegerMatrix.zeroed chainExtent freeCount, ⟨0, 0⟩)
  let (_, progress) ← run.items "terminal-relative cocycle verification"
    (grid incomingCols freeCount) (verifyCocycle generators run cocycles) ((), progress)
  let (pairing, progress) ← run.items "terminal-relative period-dual verification"
    (grid generatorCount freeCount) (verifyPeriod generators run cocycles)
    (ExactIntegerMatrix.zeroed generatorCount freeCount, progress)
  run.poll "terminal-relative free-cocycle finalize" progress
  pure ⟨generators, cocycles, pairing, progress.work, progress.scalar, retainedEntries⟩

section Exact

open Matrix

variable {machine : Machine} {checkpoint : Checkpoint} {workItems scalarOperations : ℕ}
  {report : VerifiedTerminalRelativeHomology}
  {generators : VerifiedTerminalRelativeHomologyGenerators}

/-- The free rows of the presentation. -/
def dualValue (report : VerifiedTerminalRelativeHomology) (row cocycle : ℕ) : ℤ :=
  ∑ term ∈ Finset.range report.cycleRank,
    report.transport.outgoingSmith.witness.rightInverse.value
        (report.transport.outgoingRank + term) row *
      report.imageSmith.witness.left.value (report.boundaryRank + cocycle) term

theorem dualValue_eq (h : Bound report) (i : Fin report.cycleRank)
    (j : Fin report.transport.outgoing.matrix.cols) {cocycle : ℕ}
    (hi : i.val = report.boundaryRank + cocycle) :
    presentationRows report.transport.outgoingSmith report.imageSmith h.kernelRows i j =
      dualValue report j cocycle := by
  unfold presentationRows
  rw [Matrix.mul_apply, dualValue, Finset.sum_range, ← hi]
  apply Finset.sum_congr rfl
  intro k _
  exact mul_comm _ _

/-- Shapes of the other transforms of a report. -/
theorem Bound.inverseShapes (h : Bound report) :
    report.transport.outgoingSmith.witness.rightInverse.rows =
        report.transport.outgoing.matrix.cols ∧
      report.transport.outgoingSmith.witness.rightInverse.cols =
        report.transport.outgoing.matrix.cols ∧
      report.imageSmith.witness.left.rows = report.cycleRank ∧
      report.imageSmith.witness.left.cols = report.cycleRank := by
  have hrows : report.imageSmith.source.rows = report.cycleRank :=
    congrArg ExactIntegerMatrix.rows h.imageSource
  have hleft := h.image.shapes.left
  have hinverse := h.smith.shapes.rightInverse
  rw [h.outgoingSource] at hinverse
  rw [hrows] at hleft
  exact ⟨hinverse.1, hinverse.2, hleft.1, hleft.2⟩

theorem liftCochain_within {row cocycle : ℕ} (h : Bound generators.homology)
    (hgenerated : Generated generators.homology generators) {passed : List (ℕ × ℕ)}
    {matrix : ExactIntegerMatrix}
    (hwritten : Written generators.homology.transport.outgoing.matrix.cols
      generators.freeGeneratorCount (dualValue generators.homology) passed matrix)
    (hrow : row < generators.homology.transport.outgoing.matrix.cols)
    (hcocycle : cocycle < generators.freeGeneratorCount) (completed : ℕ) :
    Within OutsideSelfChecks
      (fun r => Written generators.homology.transport.outgoing.matrix.cols
        generators.freeGeneratorCount (dualValue generators.homology)
        (passed ++ [(row, cocycle)]) r.1)
      (liftCochain generators (homologyCocycleRun machine checkpoint workItems scalarOperations)
        matrix (row, cocycle) completed) := by
  obtain ⟨hinverseRows, hinverseCols, hleftRows, hleftCols⟩ := h.inverseShapes
  have hkernel := h.kernelRows
  have hfree := hgenerated.freeCount h
  unfold liftCochain
  refine Within.bind (StageRun.innerProduct_within (fun _ => trivial) (fun _ _ => trivial)
    (g := fun term => generators.homology.transport.outgoingSmith.witness.rightInverse.value
      (generators.homology.transport.outgoingRank + term) row *
      generators.homology.imageSmith.witness.left.value
        (generators.homology.boundaryRank + cocycle) term) ?_ completed) ?_
  · intro term hterm
    rw [ExactIntegerMatrix.value_of_lt (by omega) (by omega),
      ExactIntegerMatrix.value_of_lt (by omega) (by omega)]
  · rintro ⟨sum, count⟩ rfl
    exact Within.ok (hwritten.step hrow hcocycle)

/-- The free rows vanish on boundaries. -/
theorem cocycle_sum (h : Bound report) {col cocycle : ℕ}
    (hcol : col < report.transport.incoming.matrix.cols)
    (hcocycle : report.boundaryRank + cocycle < report.cycleRank) :
    ∑ term ∈ Finset.range report.transport.outgoing.matrix.cols,
      dualValue report term cocycle * report.transport.incoming.matrix.value term col = 0 := by
  obtain ⟨-, -, hzeros⟩ := h.extents
  have hstart := h.divided.start
  obtain ⟨R', hR⟩ := h.presented.coordinates_boundary
  have hentry := congrFun (congrFun hR ⟨_, hcocycle⟩) ⟨col, hcol⟩
  have hrow : (rectDiagonal report.cycleRank report.transport.incoming.matrix.cols
      (fun i => report.imageSmith.witness.diagonal.value i i) * R') ⟨_, hcocycle⟩ ⟨col, hcol⟩ =
      0 := by
    rw [Matrix.mul_apply]
    apply Finset.sum_eq_zero
    intro k _
    rw [rectDiagonal, Matrix.of_apply, hzeros _ (by dsimp only; omega), ite_self, zero_mul]
  rw [hrow, Matrix.mul_apply] at hentry
  rw [Finset.sum_range, ← hentry]
  apply Finset.sum_congr rfl
  intro term _
  rw [dualValue_eq h _ term rfl]
  rfl

theorem verifyCocycle_within {col cocycle : ℕ} (h : Bound generators.homology)
    (hgenerated : Generated generators.homology generators) {cocycles : ExactIntegerMatrix}
    (hcocycles : Written generators.homology.transport.outgoing.matrix.cols
      generators.freeGeneratorCount (dualValue generators.homology)
      (grid generators.homology.transport.outgoing.matrix.cols generators.freeGeneratorCount)
      cocycles)
    (hcol : col < generators.homology.transport.incoming.matrix.cols)
    (hcocycle : cocycle < generators.freeGeneratorCount) (completed : ℕ) :
    Within OutsideSelfChecks (fun _ => True)
      (verifyCocycle generators (homologyCocycleRun machine checkpoint workItems scalarOperations)
        cocycles () (col, cocycle) completed) := by
  have hfree := hgenerated.freeCount h
  have hinner := h.inner
  unfold verifyCocycle checkedHomologyCocycleTransposedDot
  apply Within.bind (Q := fun r : ℤ × ℕ => r.1 = 0)
  · apply Within.bind (refuseWhen_within fun hne => hne (hcocycles.rows_eq.trans hinner))
    intro _ _
    rw [hcocycles.rows_eq]
    refine Within.imp (StageRun.innerProduct_within (fun _ => trivial) (fun _ _ => trivial)
      (g := fun term => dualValue generators.homology term cocycle *
        generators.homology.transport.incoming.matrix.value term col) ?_ completed)
      fun r hr => hr.trans (cocycle_sum h hcol (by omega))
    intro term hterm
    rw [← hcocycles.value_eq hterm hcocycle,
      ExactIntegerMatrix.value_of_lt (hcocycles.rows_eq ▸ hterm) (hcocycles.cols_eq ▸ hcocycle),
      ExactIntegerMatrix.value_of_lt (by omega) hcol]
  · rintro ⟨actual, count⟩ hzero
    apply Within.bind (refuseWhen_within fun hne => hne hzero)
    intro _ _
    exact Within.ok trivial

/-- The free rows are dual to the free columns. -/
theorem period_sum (h : Bound report) {generator cocycle : ℕ}
    (hgenerator : report.torsionStart + generator < report.cycleRank)
    (hcocycle : report.boundaryRank + cocycle < report.cycleRank) :
    ∑ term ∈ Finset.range report.transport.outgoing.matrix.cols,
      dualValue report term cocycle * liftedValue report term generator =
      if generator = report.torsionInvariantFactors.length + cocycle then 1 else 0 := by
  have hstart := h.divided.start
  have hentry := congrFun (congrFun h.presented.coordinates ⟨_, hcocycle⟩) ⟨_, hgenerator⟩
  rw [Matrix.mul_apply, Matrix.one_apply] at hentry
  have hsame : (⟨report.boundaryRank + cocycle, hcocycle⟩ : Fin report.cycleRank) =
      ⟨report.torsionStart + generator, hgenerator⟩ ↔
      generator = report.torsionInvariantFactors.length + cocycle := by
    rw [Fin.mk.injEq]
    omega
  rw [if_congr hsame rfl rfl] at hentry
  rw [Finset.sum_range, ← hentry]
  apply Finset.sum_congr rfl
  intro term _
  rw [dualValue_eq h _ term rfl, liftedValue_eq h term _ rfl]

theorem verifyPeriod_within {generator cocycle : ℕ} (h : Bound generators.homology)
    (hgenerated : Generated generators.homology generators) {cocycles : ExactIntegerMatrix}
    (hcocycles : Written generators.homology.transport.outgoing.matrix.cols
      generators.freeGeneratorCount (dualValue generators.homology)
      (grid generators.homology.transport.outgoing.matrix.cols generators.freeGeneratorCount)
      cocycles) (pairing : ExactIntegerMatrix)
    (hgenerator : generator < generators.generatorCount)
    (hcocycle : cocycle < generators.freeGeneratorCount) (completed : ℕ) :
    Within OutsideSelfChecks (fun _ => True)
      (verifyPeriod generators (homologyCocycleRun machine checkpoint workItems scalarOperations)
        cocycles pairing (generator, cocycle) completed) := by
  have hfree := hgenerated.freeCount h
  have hcount := hgenerated.generatorCount_eq h
  have hcycles := hgenerated.cycles
  unfold verifyPeriod checkedHomologyCocycleTransposedDot
  apply Within.bind (Q := fun r : ℤ × ℕ =>
    r.1 = if generator = generators.torsionCount + cocycle then 1 else 0)
  · apply Within.bind (refuseWhen_within fun hne =>
      hne (hcocycles.rows_eq.trans hcycles.rows_eq.symm))
    intro _ _
    rw [hcocycles.rows_eq, hgenerated.torsionCount_eq]
    refine Within.imp (StageRun.innerProduct_within (fun _ => trivial) (fun _ _ => trivial)
      (g := fun term => dualValue generators.homology term cocycle *
        liftedValue generators.homology term generator) ?_ completed)
      fun r hr => hr.trans (period_sum h (by omega) (by omega))
    intro term hterm
    rw [← hcocycles.value_eq hterm hcocycle, ← hcycles.value_eq hterm (by omega),
      ExactIntegerMatrix.value_of_lt (hcocycles.rows_eq ▸ hterm) (hcocycles.cols_eq ▸ hcocycle),
      ExactIntegerMatrix.value_of_lt (hcycles.rows_eq ▸ hterm) hgenerator]
  · rintro ⟨actual, count⟩ hactual
    apply Within.bind (refuseWhen_within fun hne => hne hactual)
    intro _ _
    exact Within.ok trivial

/-- What the periods of generators are. -/
structure Paired (generators : VerifiedTerminalRelativeHomologyGenerators)
    (periods : VerifiedTerminalRelativeFreeCocyclePeriods) : Prop where
  generators_eq : periods.generators = generators
  cocycles : Written generators.homology.transport.outgoing.matrix.cols
    generators.freeGeneratorCount (dualValue generators.homology)
    (grid generators.homology.transport.outgoing.matrix.cols generators.freeGeneratorCount)
    periods.cocycleRepresentatives

theorem periods_ensures (h : Bound generators.homology)
    (hgenerated : Generated generators.homology generators) (budget : HomologyCocycleBudget) :
    Ensures OutsideSelfChecks (Paired generators)
      (verifyTerminalRelativeFreeCocyclePeriodsWithCheckpoint machine generators budget
        checkpoint) := by
  obtain ⟨hrows, hextent, -⟩ := h.extents
  obtain ⟨hinverseRows, hinverseCols, hleftRows, hleftCols⟩ := h.inverseShapes
  have hkernel := h.kernelRows
  have hstart := h.divided.start
  have hfree := hgenerated.freeCount h
  have hcount := hgenerated.generatorCount_eq h
  have htorsion := hgenerated.torsionCount_eq
  unfold verifyTerminalRelativeFreeCocyclePeriodsWithCheckpoint
  dsimp only
  apply Ensures.bind (Ensures.refuseIf _)
  · intro _ _
    apply Ensures.bind (exact_outside _)
    intro cocycleEntries _
    apply Ensures.bind (exact_outside _)
    intro pairingEntries _
    apply Ensures.bind (exact_outside _)
    intro outputEntries _
    apply Ensures.bind (Ensures.refuseIf fun _ => trivial)
    intro _ _
    apply Ensures.bind (exact_outside _)
    intro retainedEntries _
    apply Ensures.bind (Ensures.refuseIf fun _ => trivial)
    intro _ _
    apply Ensures.bind (exact_outside _)
    intro scalarOperations _
    apply Ensures.bind (Ensures.refuseIf fun _ => trivial)
    intro _ _
    apply Ensures.bind (exact_outside _)
    intro workItems _
    apply Ensures.bind (Ensures.poll trivial)
    intro _ _
    apply Ensures.bind (Ensures.poll trivial)
    intro _ _
    apply Ensures.bind (exact_outside _)
    intro _ _
    apply Ensures.bind (exact_outside _)
    intro _ _
    apply Ensures.bind (StageRun.items_ensures (I := Written
        generators.homology.transport.outgoing.matrix.cols generators.freeGeneratorCount
        (dualValue generators.homology)) (fun _ => trivial) (fun _ _ _ _ _ => trivial)
      Written.zeroed fun passed place later matrix completed hplaces hwritten =>
        liftCochain_within h hgenerated hwritten (mem_grid_of_append hplaces).1
          (mem_grid_of_append hplaces).2 completed)
    rintro ⟨cocycles, progress⟩ hcocycles
    apply Ensures.bind (StageRun.items_ensures (I := fun _ _ => True) (fun _ => trivial)
      (fun _ _ _ _ _ => trivial) trivial fun passed place later _ completed hplaces _ =>
        verifyCocycle_within h hgenerated hcocycles (mem_grid_of_append hplaces).1
          (mem_grid_of_append hplaces).2 completed)
    rintro ⟨_, progress⟩ -
    apply Ensures.bind (StageRun.items_ensures (I := fun _ _ => True) (fun _ => trivial)
      (fun _ _ _ _ _ => trivial) trivial fun passed place later pairing completed hplaces _ =>
        verifyPeriod_within h hgenerated hcocycles pairing (mem_grid_of_append hplaces).1
          (mem_grid_of_append hplaces).2 completed)
    rintro ⟨_, progress⟩ -
    apply Ensures.bind (Ensures.poll trivial)
    intro _ _
    exact Ensures.pure ⟨rfl, hcocycles⟩
  · intro hshapes
    apply hshapes
    have hcycleRows := hgenerated.cycles.rows_eq
    have hrank : generators.homology.transport.outgoing.matrix.cols =
        generators.homology.transport.chainExtent := rfl
    refine ⟨h.inner.symm, by omega, by omega, by omega, by omega, by omega, hcycleRows, rfl,
      h.basis.symm, hinverseRows, hinverseCols, hleftRows, hleftCols⟩

end Exact

end FrankenSim.Relative
