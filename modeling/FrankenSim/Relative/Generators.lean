import FrankenSim.Relative.Homology

/-!
# Generators of the homology

The columns of the presentation that are no units are lifted to chains, and the lifted
columns are checked to be cycles whose multiples by their orders are boundaries. The checks
never fail, and the columns generate the homology with no relations but their orders.
-/
namespace FrankenSim.Relative

open Library Library.Polled Smith

/-- Limits of the generators. -/
structure HomologyGeneratorBudget where
  maxOutputEntries : ℕ
  maxRetainedEntries : ℕ
  maxScalarOperations : ℕ

/-- Completed work items and inner-product terms. -/
structure Progress where
  work : ℕ
  scalar : ℕ

/-- A stage above the decomposition, with its plan, its checkpoint and its own refusals. -/
structure StageRun where
  machine : Machine
  checkpoint : Checkpoint
  workItems : ℕ
  scalarOperations : ℕ
  workPhase : String
  scalarPhase : String
  cancelled : String → ℕ → ℕ → ℕ → ℕ → HomologyError

namespace StageRun

variable (run : StageRun)

def poll (phase : String) (progress : Progress) : Polled HomologyError Unit :=
  Polled.poll run.checkpoint phase (run.cancelled phase progress.work run.workItems
    progress.scalar run.scalarOperations)

def checkedCoefficient (value : ℤ) (overflow : HomologyError) : Except HomologyError ℤ :=
  if run.machine.coefficient value then .ok value else .error overflow

/-- One more inner-product term. -/
def countTerm (completed : ℕ) : Except HomologyError ℕ :=
  (run.machine.checkedCount (completed + 1) run.scalarPhase).mapError .algebra

def accumulate (left right : ℤ) (overflow : HomologyError) (state : ℤ × ℕ) :
    Except HomologyError (ℤ × ℕ) := do
  let product ← run.checkedCoefficient (left * right) overflow
  let next ← run.checkedCoefficient (state.1 + product) overflow
  let completed ← run.countTerm state.2
  pure (next, completed)

/-- An inner product of so many terms, added to a sum. -/
def innerProduct (terms : ℕ) (left right : ℕ → ℤ) (overflow : ℕ → HomologyError)
    (state : ℤ × ℕ) : Except HomologyError (ℤ × ℕ) :=
  (List.range terms).foldlM (fun state term =>
    run.accumulate (left term) (right term) (overflow term) state) state

/-- One work item for each place: it is polled, done and counted. -/
def items {ι σ : Type} (phase : String) (places : List ι)
    (body : σ → ι → ℕ → Except HomologyError (σ × ℕ)) (state : σ × Progress) :
    Polled HomologyError (σ × Progress) :=
  places.foldlM (fun state place => do
    run.poll phase state.2
    let (value, scalar) ← unpolled (body state.1 place state.2.scalar)
    let work ← exact (run.machine.checkedCount (state.2.work + 1) run.workPhase)
    pure (value, ⟨work, scalar⟩)) state

end StageRun

/-- The places of a matrix, row by row. -/
def grid (rows cols : ℕ) : List (ℕ × ℕ) := List.range rows ×ˢ List.range cols

/-- A product of extents as a work count. -/
def checkedHomologyGeneratorPlanProduct (machine : Machine) (factors : List ℕ) (phase : String) :
    Except IntegralTopologyError ℕ :=
  machine.checkedProduct phase 1 factors

/-- A sum of work counts. -/
def plannedTotal (machine : Machine) (phase : String) (counts : List ℕ) :
    Except IntegralTopologyError ℕ :=
  counts.foldlM (fun total count => machine.checkedCount (total + count) phase) 0

/-- A torsion generator with its order, or a free one. -/
inductive HomologyGeneratorKind
  | torsion (order : ℤ)
  | free
  deriving DecidableEq, Repr

structure VerifiedTerminalRelativeHomologyGenerators where
  homology : VerifiedTerminalRelativeHomology
  cycleRepresentatives : ExactIntegerMatrix
  torsionBoundingChains : ExactIntegerMatrix
  torsionCount : ℕ
  workItems : ℕ
  scalarOperations : ℕ
  retainedEntries : ℕ

namespace VerifiedTerminalRelativeHomologyGenerators

variable (self : VerifiedTerminalRelativeHomologyGenerators)

def generatorCount : ℕ := self.cycleRepresentatives.cols

def freeGeneratorCount : ℕ := self.generatorCount - self.torsionCount

def generatorKind (column : ℕ) : Option HomologyGeneratorKind :=
  if column ≥ self.generatorCount then none
  else if column < self.torsionCount then
    some (.torsion (self.homology.imageSmith.invariantFactors.getD
      (self.homology.torsionStart + column) 0))
  else some .free

end VerifiedTerminalRelativeHomologyGenerators

section Generators

variable (machine : Machine)

def plannedHomologyGeneratorScalarOperations (outgoingRows chainExtent incomingCols cycleRank
    generatorCount torsionCount : ℕ) : Except IntegralTopologyError ℕ := do
  let lift ← checkedHomologyGeneratorPlanProduct machine [chainExtent, cycleRank, generatorCount]
    "terminal-relative generator lift scalar operations"
  let cycle ← checkedHomologyGeneratorPlanProduct machine
    [outgoingRows, chainExtent, generatorCount]
    "terminal-relative generator cycle scalar operations"
  let boundary ← checkedHomologyGeneratorPlanProduct machine
    [chainExtent, incomingCols, torsionCount]
    "terminal-relative generator boundary scalar operations"
  let scaling ← checkedHomologyGeneratorPlanProduct machine [chainExtent, torsionCount]
    "terminal-relative generator scaling operations"
  plannedTotal machine "terminal-relative generator scalar operations"
    [lift, cycle, boundary, scaling]

def plannedHomologyGeneratorWorkItems (outgoingRows chainExtent incomingCols generatorCount
    torsionCount : ℕ) : Except IntegralTopologyError ℕ := do
  let cycleOutput ← checkedHomologyGeneratorPlanProduct machine [chainExtent, generatorCount]
    "terminal-relative generator cycle output work"
  let boundingOutput ← checkedHomologyGeneratorPlanProduct machine [incomingCols, torsionCount]
    "terminal-relative generator bounding output work"
  let cycleChecks ← checkedHomologyGeneratorPlanProduct machine [outgoingRows, generatorCount]
    "terminal-relative generator cycle check work"
  let boundaryChecks ← checkedHomologyGeneratorPlanProduct machine [chainExtent, torsionCount]
    "terminal-relative generator boundary check work"
  plannedTotal machine "terminal-relative generator work items"
    [cycleOutput, boundingOutput, cycleChecks, boundaryChecks]

def homologyGeneratorRun (checkpoint : Checkpoint) (workItems scalarOperations : ℕ) :
    StageRun where
  machine := machine
  checkpoint := checkpoint
  workItems := workItems
  scalarOperations := scalarOperations
  workPhase := "completed terminal-relative generator work"
  scalarPhase := "completed terminal-relative generator scalar operations"
  cancelled := .homologyGeneratorCancelled

def checkedHomologyGeneratorDot (run : StageRun) (left : ExactIntegerMatrix) (row : ℕ)
    (right : ExactIntegerMatrix) (col : ℕ) (stage : HomologyGeneratorStage) (completed : ℕ) :
    Except HomologyError (ℤ × ℕ) := do
  refuseWhen (left.cols ≠ right.rows)
    (.homologyGeneratorInvariantLost "generator verification inner matrix extent")
  run.innerProduct left.cols (left.entry row) (fun term => right.entry term col)
    (.homologyGeneratorArithmeticOverflow stage row col) (0, completed)

variable (homology : VerifiedTerminalRelativeHomology) (run : StageRun)

/-- A column of the presentation in the original chains. -/
def liftChain (matrix : ExactIntegerMatrix) (place : ℕ × ℕ) (completed : ℕ) :
    Except HomologyError (ExactIntegerMatrix × ℕ) := do
  let (row, generator) := place
  let transport := homology.transport
  let (sum, completed) ← run.innerProduct homology.cycleRank
    (fun term => transport.outgoingSmith.witness.right.entry row (transport.outgoingRank + term))
    (fun term => homology.imageSmith.witness.leftInverse.entry term
      (homology.torsionStart + generator))
    (.homologyGeneratorArithmeticOverflow .originalChainLift row generator) (0, completed)
  pure (matrix.setEntry row generator sum, completed)

def fillTorsion (matrix : ExactIntegerMatrix) (place : ℕ × ℕ) (completed : ℕ) :
    Except HomologyError (ExactIntegerMatrix × ℕ) :=
  let (row, torsion) := place
  .ok (matrix.setEntry row torsion
    (homology.imageSmith.witness.right.entry row (homology.torsionStart + torsion)), completed)

def verifyCycle (cycles : ExactIntegerMatrix) (_ : Unit) (place : ℕ × ℕ) (completed : ℕ) :
    Except HomologyError (Unit × ℕ) := do
  let (row, generator) := place
  let (actual, completed) ← checkedHomologyGeneratorDot run homology.transport.outgoing.matrix row
    cycles generator .cycleVerification completed
  refuseWhen (actual ≠ 0)
    (.homologyGeneratorVerificationMismatch .cycleVerification row generator 0 actual)
  pure ((), completed)

def verifyBoundaryOrder (cycles bounding : ExactIntegerMatrix) (_ : Unit) (place : ℕ × ℕ)
    (completed : ℕ) : Except HomologyError (Unit × ℕ) := do
  let (row, torsion) := place
  let incoming := homology.transport.incoming.matrix
  let (actual, completed) ← checkedHomologyGeneratorDot run incoming row bounding torsion
    .boundaryOrderVerification completed
  let order := homology.imageSmith.invariantFactors.getD (homology.torsionStart + torsion) 0
  let expected ← run.checkedCoefficient (order * cycles.entry row torsion)
    (.homologyGeneratorArithmeticOverflow .boundaryOrderVerification row torsion incoming.cols)
  let completed ← run.countTerm completed
  refuseWhen (actual ≠ expected)
    (.homologyGeneratorVerificationMismatch .boundaryOrderVerification row torsion expected actual)
  pure ((), completed)

end Generators

/-- The generators of the homology, as cycles with the fillings of their multiples. -/
def verifyTerminalRelativeHomologyGeneratorsWithCheckpoint (machine : Machine)
    (homology : VerifiedTerminalRelativeHomology) (budget : HomologyGeneratorBudget)
    (checkpoint : Checkpoint) :
    Polled HomologyError VerifiedTerminalRelativeHomologyGenerators := do
  let transport := homology.transport
  let outgoing := transport.outgoing.matrix
  let incoming := transport.incoming.matrix
  let outgoingSmith := transport.outgoingSmith
  let imageSmith := homology.imageSmith
  let outgoingRows := outgoing.rows
  let chainExtent := outgoing.cols
  let incomingCols := incoming.cols
  let outgoingRank := outgoingSmith.rank
  let cycleRank := homology.cycleRank
  let boundaryRank := homology.boundaryRank
  let torsionStart := homology.torsionStart
  refuseIf (¬ (incoming.rows = chainExtent ∧ outgoingRank ≤ chainExtent ∧
      cycleRank = chainExtent - outgoingRank ∧ imageSmith.source.rows = cycleRank ∧
      imageSmith.source.cols = incomingCols ∧ imageSmith.witness.leftInverse.rows = cycleRank ∧
      imageSmith.witness.leftInverse.cols = cycleRank ∧
      imageSmith.witness.right.rows = incomingCols ∧
      imageSmith.witness.right.cols = incomingCols ∧
      outgoingSmith.witness.right.rows = chainExtent ∧
      outgoingSmith.witness.right.cols = chainExtent ∧
      boundaryRank = imageSmith.invariantFactors.length ∧ torsionStart ≤ boundaryRank ∧
      boundaryRank ≤ cycleRank))
    (.homologyGeneratorInvariantLost "retained generator-lift shapes and ranks")
  refuseIf ((∃ factor ∈ imageSmith.invariantFactors.take torsionStart, factor ≠ 1) ∨
      ∃ factor ∈ imageSmith.invariantFactors.drop torsionStart, factor ≤ 1)
    (.homologyGeneratorInvariantLost "unit and nontrivial presentation-factor split")
  let torsionCount := boundaryRank - torsionStart
  let generatorCount := cycleRank - torsionStart
  let cycleEntries ← exact (machine.checkedExtent (chainExtent * generatorCount)
    "terminal-relative generator cycle output entries")
  let boundingEntries ← exact (machine.checkedExtent (incomingCols * torsionCount)
    "terminal-relative generator bounding output entries")
  let outputEntries ← exact (machine.checkedExtent (cycleEntries + boundingEntries)
    "terminal-relative generator output entries")
  refuseIf (outputEntries > budget.maxOutputEntries)
    (.homologyGeneratorOutputBudgetExceeded outputEntries budget.maxOutputEntries)
  let retainedEntries ← exact (machine.checkedExtent (homology.retainedEntries + outputEntries)
    "terminal-relative generator retained entries")
  refuseIf (retainedEntries > budget.maxRetainedEntries)
    (.algebra (.retainedEntryBudgetExceeded retainedEntries budget.maxRetainedEntries))
  let scalarOperations ← exact (plannedHomologyGeneratorScalarOperations machine outgoingRows
    chainExtent incomingCols cycleRank generatorCount torsionCount)
  refuseIf (scalarOperations > budget.maxScalarOperations)
    (.algebra (.scalarWorkBudgetExceeded scalarOperations budget.maxScalarOperations))
  let workItems ← exact (plannedHomologyGeneratorWorkItems machine outgoingRows chainExtent
    incomingCols generatorCount torsionCount)
  let run := homologyGeneratorRun machine checkpoint workItems scalarOperations
  run.poll "terminal-relative generator preflight" ⟨0, 0⟩
  run.poll "terminal-relative generator output allocation" ⟨0, 0⟩
  exact (machine.reserveExact "homology cycle representatives" cycleEntries)
  exact (machine.reserveExact "homology torsion bounding chains" boundingEntries)
  let (cycles, progress) ← run.items "terminal-relative generator original-chain lift"
    (grid chainExtent generatorCount) (liftChain homology run)
    (ExactIntegerMatrix.zeroed chainExtent generatorCount, ⟨0, 0⟩)
  let (bounding, progress) ← run.items "terminal-relative generator torsion fillings"
    (grid incomingCols torsionCount) (fillTorsion homology)
    (ExactIntegerMatrix.zeroed incomingCols torsionCount, progress)
  let (_, progress) ← run.items "terminal-relative generator cycle verification"
    (grid outgoingRows generatorCount) (verifyCycle homology run cycles) ((), progress)
  let (_, progress) ← run.items "terminal-relative generator boundary-order verification"
    (grid chainExtent torsionCount) (verifyBoundaryOrder homology run cycles bounding)
    ((), progress)
  run.poll "terminal-relative generator finalize" progress
  pure ⟨homology, cycles, bounding, torsionCount, progress.work, progress.scalar, retainedEntries⟩

section Stages

variable {cause : HomologyError → Prop} {run : StageRun}

namespace StageRun

theorem checkedCoefficient_within {value : ℤ} {overflow : HomologyError}
    (h : run.machine.coefficient value = false → cause overflow) :
    Within cause (· = value) (run.checkedCoefficient value overflow) := by
  unfold checkedCoefficient
  split_ifs with hc
  · exact Within.ok rfl
  · exact Within.error (h (Bool.eq_false_of_not_eq_true hc))

theorem countTerm_within {completed : ℕ} (hcount : run.machine.count (completed + 1) = false →
      cause (.algebra (.workPlanOverflow run.scalarPhase))) :
    Within cause (· = completed + 1) (run.countTerm completed) := by
  unfold countTerm Machine.checkedCount
  split
  case isTrue => rfl
  case isFalse hc => exact hcount (Bool.eq_false_of_not_eq_true hc)

end StageRun

/-- Every product and every partial sum is a coefficient of the machine. -/
def Fits (machine : Machine) (start : ℤ) (g : ℕ → ℤ) (terms : ℕ) : Prop :=
  ∀ term < terms, machine.coefficient (g term) = true ∧
    machine.coefficient (start + ∑ t ∈ Finset.range (term + 1), g t) = true

namespace StageRun

/-- An inner product adds its sum and counts its terms. -/
theorem innerProduct_counted {terms : ℕ} {left right g : ℕ → ℤ} {overflow : ℕ → HomologyError}
    {start : ℤ × ℕ} (hcount : ∀ n ≤ start.2 + terms, run.machine.count n = false →
      cause (.algebra (.workPlanOverflow run.scalarPhase)))
    (hoverflow : ¬ Fits run.machine start.1 g terms → ∀ term, cause (overflow term))
    (hproduct : ∀ term < terms, left term * right term = g term) :
    Within cause (fun state => state.1 = start.1 + ∑ term ∈ Finset.range terms, g term ∧
        state.2 = start.2 + terms)
      (run.innerProduct terms left right overflow start) := by
  unfold innerProduct
  apply Within.range_foldlM (I := fun term (state : ℤ × ℕ) =>
    state.1 = start.1 + ∑ t ∈ Finset.range term, g t ∧ state.2 = start.2 + term) (by simp)
  rintro term hterm ⟨sum, count⟩ ⟨hsum, hcounted⟩
  dsimp only at hsum hcounted
  have hnext : sum + g term = start.1 + ∑ t ∈ Finset.range (term + 1), g t := by
    rw [hsum, Finset.sum_range_succ, add_assoc]
  unfold accumulate
  rw [hproduct term hterm]
  apply Within.bind (checkedCoefficient_within fun hfalse => hoverflow (fun hfits =>
    Bool.false_ne_true (hfalse.symm.trans (hfits term hterm).1)) term)
  rintro _ rfl
  rw [hnext]
  apply Within.bind (checkedCoefficient_within fun hfalse => hoverflow (fun hfits =>
    Bool.false_ne_true (hfalse.symm.trans (hfits term hterm).2)) term)
  rintro _ rfl
  apply Within.bind (countTerm_within (hcount (count + 1) (by omega)))
  rintro _ rfl
  apply Within.ok
  dsimp only
  exact ⟨rfl, by omega⟩

theorem innerProduct_within {terms : ℕ} {left right g : ℕ → ℤ} {overflow : ℕ → HomologyError}
    (hplan : ∀ phase, cause (.algebra (.workPlanOverflow phase)))
    (hoverflow : ¬ Fits run.machine 0 g terms → ∀ term, cause (overflow term))
    (hproduct : ∀ term < terms, left term * right term = g term) (completed : ℕ) :
    Within cause (fun state => state.1 = ∑ term ∈ Finset.range terms, g term)
      (run.innerProduct terms left right overflow (0, completed)) :=
  (innerProduct_counted (fun _ _ _ => hplan _) hoverflow hproduct).imp
    fun _ h => h.1.trans (zero_add _)

/-- A loop of work items keeps what its body keeps, and counts the items. -/
theorem items_counted {ι σ : Type} {phase : String} {list : List ι}
    {body : σ → ι → ℕ → Except HomologyError (σ × ℕ)} {I : List ι → σ → ℕ → Prop}
    {state : σ × Progress} (hwork : ∀ n ≤ state.2.work + list.length,
      run.machine.count n = false → cause (.algebra (.workPlanOverflow run.workPhase)))
    (hcancelled : (∃ seen phase, run.checkpoint seen phase = false) →
      ∀ phase work planned scalar total, cause (run.cancelled phase work planned scalar total))
    (h : I [] state.1 state.2.scalar)
    (step : ∀ passed place later s completed, passed ++ place :: later = list →
      I passed s completed →
      Within cause (fun r => I (passed ++ [place]) r.1 r.2) (body s place completed)) :
    Ensures cause (fun r => I list r.1 r.2.scalar ∧ r.2.work = state.2.work + list.length)
      (run.items phase list body state) := by
  unfold items
  apply Ensures.foldlM (I := fun passed (r : σ × Progress) =>
    I passed r.1 r.2.scalar ∧ r.2.work = state.2.work + passed.length) ⟨h, rfl⟩
  rintro passed place later r hlist ⟨hI, hcount⟩
  apply Ensures.bind (Ensures.poll_of fun seen hfalse => hcancelled ⟨seen, phase, hfalse⟩ _ _ _ _ _)
  intro _ _
  apply Ensures.bind (Ensures.unpolled (step passed place later _ _ hlist hI))
  rintro ⟨value, scalar⟩ hvalue
  apply Ensures.bind (Q := (· = r.2.work + 1))
  · apply Ensures.unpolled
    unfold Machine.checkedCount
    split
    case isTrue => rfl
    case isFalse hc =>
      apply hwork (r.2.work + 1) _ (Bool.eq_false_of_not_eq_true hc)
      rw [← hlist, List.length_append, List.length_cons]
      omega
  · rintro _ rfl
    apply Ensures.pure
    refine ⟨hvalue, ?_⟩
    rw [List.length_append, List.length_singleton]
    dsimp only
    omega

/-- A loop of work items keeps what its body keeps. -/
theorem items_ensures {ι σ : Type} {phase : String} {list : List ι}
    {body : σ → ι → ℕ → Except HomologyError (σ × ℕ)} {I : List ι → σ → Prop}
    {state : σ × Progress} (hplan : ∀ phase, cause (.algebra (.workPlanOverflow phase)))
    (hcancelled : ∀ phase work planned scalar total,
      cause (run.cancelled phase work planned scalar total))
    (h : I [] state.1)
    (step : ∀ passed place later s completed, passed ++ place :: later = list → I passed s →
      Within cause (fun r => I (passed ++ [place]) r.1) (body s place completed)) :
    Ensures cause (fun r => I list r.1) (run.items phase list body state) :=
  (items_counted (I := fun passed s _ => I passed s) (fun _ _ _ => hplan _)
    (fun _ => hcancelled) h step).imp fun _ h => h.1

end StageRun

theorem refuseWhen_within {condition : Prop} [Decidable condition] {error : HomologyError}
    (h : condition → cause error) :
    Within cause (fun _ => ¬ condition) (refuseWhen condition error) := by
  unfold refuseWhen
  split
  case isTrue hc => exact h hc
  case isFalse hc => exact hc

theorem mem_grid {rows cols row col : ℕ} :
    (row, col) ∈ grid rows cols ↔ row < rows ∧ col < cols :=
  List.pair_mem_product.trans (and_congr List.mem_range List.mem_range)

/-- A place of a loop over a grid lies in it. -/
theorem mem_grid_of_append {rows cols row col : ℕ} {passed later : List (ℕ × ℕ)}
    (h : passed ++ (row, col) :: later = grid rows cols) : row < rows ∧ col < cols := by
  apply mem_grid.1
  rw [← h]
  exact List.mem_append_right _ List.mem_cons_self

/-- The matrix has these values at the places passed. -/
structure Written (rows cols : ℕ) (f : ℕ → ℕ → ℤ) (passed : List (ℕ × ℕ))
    (matrix : ExactIntegerMatrix) : Prop where
  rows_eq : matrix.rows = rows
  cols_eq : matrix.cols = cols
  values : ∀ place ∈ passed, matrix.value place.1 place.2 = f place.1 place.2

namespace Written

variable {rows cols row col : ℕ} {f : ℕ → ℕ → ℤ} {passed : List (ℕ × ℕ)}
  {matrix : ExactIntegerMatrix}

theorem zeroed : Written rows cols f [] (ExactIntegerMatrix.zeroed rows cols) :=
  ⟨rfl, rfl, fun _ h => absurd h List.not_mem_nil⟩

theorem step (h : Written rows cols f passed matrix) (hrow : row < rows) (hcol : col < cols) :
    Written rows cols f (passed ++ [(row, col)]) (matrix.setEntry row col (f row col)) where
  rows_eq := h.rows_eq
  cols_eq := h.cols_eq
  values := by
    intro place hplace
    rw [ExactIntegerMatrix.value_setEntry _ _ (h.rows_eq ▸ hrow) (h.cols_eq ▸ hcol)]
    split_ifs with heq
    · rw [heq.1, heq.2]
    · rcases List.mem_append.1 hplace with hplace | hplace
      · exact h.values place hplace
      · rw [List.mem_singleton.1 hplace] at heq
        exact absurd ⟨rfl, rfl⟩ heq

theorem value_eq (h : Written rows cols f (grid rows cols) matrix) (hrow : row < rows)
    (hcol : col < cols) : matrix.value row col = f row col :=
  h.values (row, col) (mem_grid.2 ⟨hrow, hcol⟩)

end Written

end Stages

section Exact

open Matrix

/-- The refusals other than of a lost invariant or of a failed verification. -/
def OutsideSelfChecks : HomologyError → Prop
  | .homologyGeneratorInvariantLost _ => False
  | .homologyGeneratorVerificationMismatch .. => False
  | .homologyCocycleInvariantLost _ => False
  | .homologyCocycleVerificationMismatch .. => False
  | .homologyClassInvariantLost _ => False
  | .homologyClassVerificationMismatch .. => False
  | _ => True

variable {machine : Machine} {checkpoint : Checkpoint} {workItems scalarOperations : ℕ}
  {report : VerifiedTerminalRelativeHomology}

theorem exact_outside {α : Type} (x : Except IntegralTopologyError α) :
    Ensures OutsideSelfChecks (fun _ => True) (exact x) := by
  apply Ensures.unpolled
  cases x <;> trivial

/-- The columns that generate the homology. -/
def liftedValue (report : VerifiedTerminalRelativeHomology) (row generator : ℕ) : ℤ :=
  ∑ term ∈ Finset.range report.cycleRank,
    report.transport.outgoingSmith.witness.right.value row (report.transport.outgoingRank + term) *
      report.imageSmith.witness.leftInverse.value term (report.torsionStart + generator)

theorem liftedValue_eq (h : Bound report) (i : Fin report.transport.outgoing.matrix.cols)
    (j : Fin report.cycleRank) {generator : ℕ} (hj : j.val = report.torsionStart + generator) :
    presentationColumns report.transport.outgoingSmith report.imageSmith h.kernelRows i j =
      liftedValue report i generator := by
  unfold presentationColumns
  rw [Matrix.mul_apply, liftedValue, Finset.sum_range, ← hj]
  rfl

/-- Shapes of the transforms of a report. -/
theorem Bound.shapes (h : Bound report) :
    report.imageSmith.source.rows = report.cycleRank ∧
      report.imageSmith.source.cols = report.transport.incoming.matrix.cols ∧
      report.imageSmith.witness.leftInverse.rows = report.cycleRank ∧
      report.imageSmith.witness.leftInverse.cols = report.cycleRank ∧
      report.imageSmith.witness.right.rows = report.transport.incoming.matrix.cols ∧
      report.imageSmith.witness.right.cols = report.transport.incoming.matrix.cols ∧
      report.transport.outgoingSmith.witness.right.rows =
        report.transport.outgoing.matrix.cols ∧
      report.transport.outgoingSmith.witness.right.cols =
        report.transport.outgoing.matrix.cols := by
  have hrows : report.imageSmith.source.rows = report.cycleRank :=
    congrArg ExactIntegerMatrix.rows h.imageSource
  have hcols := h.transported.cols
  have hleft := h.image.shapes.leftInverse
  have hright := h.image.shapes.right
  have houtgoing := h.smith.shapes.right
  rw [h.outgoingSource] at houtgoing
  rw [hrows] at hleft
  rw [hcols] at hright
  exact ⟨hrows, hcols, hleft.1, hleft.2, hright.1, hright.2, houtgoing.1, houtgoing.2⟩

theorem liftChain_within {generatorCount row generator : ℕ} (h : Bound report)
    (hcount : report.torsionStart + generatorCount = report.cycleRank)
    {passed : List (ℕ × ℕ)} {matrix : ExactIntegerMatrix}
    (hwritten : Written report.transport.outgoing.matrix.cols generatorCount (liftedValue report)
      passed matrix)
    (hrow : row < report.transport.outgoing.matrix.cols) (hgenerator : generator < generatorCount)
    (completed : ℕ) :
    Within OutsideSelfChecks
      (fun r => Written report.transport.outgoing.matrix.cols generatorCount (liftedValue report)
        (passed ++ [(row, generator)]) r.1)
      (liftChain report (homologyGeneratorRun machine checkpoint workItems scalarOperations) matrix
        (row, generator) completed) := by
  obtain ⟨-, -, hleftRows, hleftCols, -, -, hrightRows, hrightCols⟩ := h.shapes
  have hkernel := h.kernelRows
  unfold liftChain
  refine Within.bind (StageRun.innerProduct_within (fun _ => trivial) (fun _ _ => trivial)
    (g := fun term => report.transport.outgoingSmith.witness.right.value row
      (report.transport.outgoingRank + term) *
      report.imageSmith.witness.leftInverse.value term (report.torsionStart + generator))
    ?_ completed) ?_
  · intro term hterm
    rw [ExactIntegerMatrix.value_of_lt (by omega) (by omega),
      ExactIntegerMatrix.value_of_lt (by omega) (by omega)]
  · rintro ⟨sum, count⟩ rfl
    exact Within.ok (hwritten.step hrow hgenerator)

/-- The columns that fill the multiples of the torsion generators. -/
def fillingValue (report : VerifiedTerminalRelativeHomology) (row torsion : ℕ) : ℤ :=
  report.imageSmith.witness.right.value row (report.torsionStart + torsion)

theorem fillTorsion_within {row torsion : ℕ} (h : Bound report) {passed : List (ℕ × ℕ)}
    {matrix : ExactIntegerMatrix}
    (hwritten : Written report.transport.incoming.matrix.cols
      report.torsionInvariantFactors.length (fillingValue report) passed matrix)
    (hrow : row < report.transport.incoming.matrix.cols)
    (htorsion : torsion < report.torsionInvariantFactors.length) (completed : ℕ) :
    Within OutsideSelfChecks
      (fun r => Written report.transport.incoming.matrix.cols
        report.torsionInvariantFactors.length (fillingValue report) (passed ++ [(row, torsion)])
        r.1)
      (fillTorsion report matrix (row, torsion) completed) := by
  obtain ⟨-, -, -, -, hrows, hcols, -, -⟩ := h.shapes
  obtain ⟨-, hextent, -⟩ := h.extents
  unfold fillTorsion
  dsimp only
  rw [← ExactIntegerMatrix.value_of_lt (by omega) (by omega)]
  exact Within.ok (hwritten.step hrow htorsion)

/-- The lifted columns are cycles. -/
theorem cycle_sum (h : Bound report) {row generator : ℕ}
    (hrow : row < report.transport.outgoing.matrix.rows)
    (hgenerator : report.torsionStart + generator < report.cycleRank) :
    ∑ term ∈ Finset.range report.transport.outgoing.matrix.cols,
      report.transport.outgoing.matrix.value row term * liftedValue report term generator = 0 := by
  have hpresentation := h.presented
  have hentry := congrFun (congrFun hpresentation.cycles ⟨row, hrow⟩) ⟨_, hgenerator⟩
  rw [Matrix.mul_apply, Matrix.zero_apply] at hentry
  rw [Finset.sum_range, ← hentry]
  apply Finset.sum_congr rfl
  intro term _
  rw [liftedValue_eq h term _ rfl]
  rfl

theorem verifyCycle_within {generatorCount row generator : ℕ} (h : Bound report)
    (hcount : report.torsionStart + generatorCount = report.cycleRank)
    {cycles : ExactIntegerMatrix}
    (hcycles : Written report.transport.outgoing.matrix.cols generatorCount (liftedValue report)
      (grid report.transport.outgoing.matrix.cols generatorCount) cycles)
    (hrow : row < report.transport.outgoing.matrix.rows) (hgenerator : generator < generatorCount)
    (completed : ℕ) :
    Within OutsideSelfChecks (fun _ => True)
      (verifyCycle report (homologyGeneratorRun machine checkpoint workItems scalarOperations)
        cycles () (row, generator) completed) := by
  unfold verifyCycle checkedHomologyGeneratorDot
  apply Within.bind (Q := fun r : ℤ × ℕ => r.1 = 0)
  · apply Within.bind (refuseWhen_within fun hne => hne hcycles.rows_eq.symm)
    intro _ _
    refine Within.imp (StageRun.innerProduct_within (fun _ => trivial) (fun _ _ => trivial)
      (g := fun term => report.transport.outgoing.matrix.value row term *
        liftedValue report term generator) ?_ completed)
      fun r hr => hr.trans (cycle_sum h hrow (by omega))
    intro term hterm
    rw [← hcycles.value_eq hterm hgenerator, ExactIntegerMatrix.value_of_lt hrow hterm,
      ExactIntegerMatrix.value_of_lt (hcycles.rows_eq ▸ hterm) (hcycles.cols_eq ▸ hgenerator)]
  · rintro ⟨actual, count⟩ hzero
    apply Within.bind (refuseWhen_within fun hne => hne hzero)
    intro _ _
    exact Within.ok trivial

theorem torsion_getD (j : ℕ) : report.torsionInvariantFactors.getD j 0 =
    report.imageSmith.invariantFactors.getD (report.torsionStart + j) 0 := by
  rw [VerifiedTerminalRelativeHomology.torsionInvariantFactors, List.getD_eq_getElem?_getD,
    List.getD_eq_getElem?_getD, List.getElem?_drop]

theorem order_eq (h : Bound report) {torsion : ℕ}
    (htorsion : torsion < report.torsionInvariantFactors.length) :
    report.torsionInvariantFactors.getD torsion 0 =
      report.imageSmith.witness.diagonal.value (report.torsionStart + torsion)
        (report.torsionStart + torsion) := by
  rw [List.getD_eq_getElem?_getD, List.getElem?_eq_getElem htorsion, Option.getD_some]
  have hentry := List.getElem_of_eq h.divided.torsion htorsion
  rw [List.getElem_map, List.getElem_range] at hentry
  exact hentry

/-- The fillings bound the multiples of the torsion generators by their orders. -/
theorem filling_sum (h : Bound report) {row torsion : ℕ}
    (hrow : row < report.transport.outgoing.matrix.cols)
    (htorsion : torsion < report.torsionInvariantFactors.length) :
    ∑ term ∈ Finset.range report.transport.incoming.matrix.cols,
      report.transport.incoming.matrix.value row term * fillingValue report term torsion =
      report.torsionInvariantFactors.getD torsion 0 * liftedValue report row torsion := by
  obtain ⟨hrows, hextent, -⟩ := h.extents
  have hcol : report.torsionStart + torsion < report.transport.incoming.matrix.cols := by omega
  have hcycle : report.torsionStart + torsion < report.cycleRank := by omega
  have hpresentation := h.presented
  have hentry := congrFun (congrFun hpresentation.relations ⟨row, hrow⟩) ⟨_, hcol⟩
  rw [Matrix.mul_apply, mul_rectDiagonal, dif_pos hcycle, liftedValue_eq h _ _ rfl] at hentry
  rw [order_eq h htorsion, mul_comm, ← hentry, Finset.sum_range]
  rfl

theorem verifyBoundaryOrder_within {generatorCount row torsion : ℕ} (h : Bound report)
    (hcount : report.torsionStart + generatorCount = report.cycleRank)
    {cycles bounding : ExactIntegerMatrix}
    (hcycles : Written report.transport.outgoing.matrix.cols generatorCount (liftedValue report)
      (grid report.transport.outgoing.matrix.cols generatorCount) cycles)
    (hbounding : Written report.transport.incoming.matrix.cols
      report.torsionInvariantFactors.length (fillingValue report)
      (grid report.transport.incoming.matrix.cols report.torsionInvariantFactors.length) bounding)
    (hrow : row < report.transport.outgoing.matrix.cols)
    (htorsion : torsion < report.torsionInvariantFactors.length) (completed : ℕ) :
    Within OutsideSelfChecks (fun _ => True)
      (verifyBoundaryOrder report
        (homologyGeneratorRun machine checkpoint workItems scalarOperations) cycles bounding ()
        (row, torsion) completed) := by
  obtain ⟨hrows, -, -⟩ := h.extents
  have hgenerator : torsion < generatorCount := by omega
  unfold verifyBoundaryOrder checkedHomologyGeneratorDot
  apply Within.bind (Q := fun r : ℤ × ℕ =>
    r.1 = report.torsionInvariantFactors.getD torsion 0 * liftedValue report row torsion)
  · apply Within.bind (refuseWhen_within fun hne => hne hbounding.rows_eq.symm)
    intro _ _
    rw [← filling_sum h hrow htorsion]
    apply StageRun.innerProduct_within (fun _ => trivial) (fun _ _ => trivial)
    intro term hterm
    rw [← hbounding.value_eq hterm htorsion,
      ExactIntegerMatrix.value_of_lt (h.inner ▸ hrow) hterm,
      ExactIntegerMatrix.value_of_lt (hbounding.rows_eq ▸ hterm) (hbounding.cols_eq ▸ htorsion)]
  · rintro ⟨actual, count⟩ hactual
    have hentry : cycles.entry row torsion = liftedValue report row torsion := by
      rw [← hcycles.value_eq hrow hgenerator,
        ExactIntegerMatrix.value_of_lt (hcycles.rows_eq ▸ hrow) (hcycles.cols_eq ▸ hgenerator)]
    dsimp only at hactual ⊢
    rw [← torsion_getD, hentry]
    apply Within.bind (StageRun.checkedCoefficient_within fun _ => trivial)
    rintro _ rfl
    apply Within.bind (StageRun.countTerm_within fun _ => trivial)
    intro _ _
    apply Within.bind (refuseWhen_within fun hne => hne hactual)
    intro _ _
    exact Within.ok trivial

/-- The factors before the torsion are units. -/
theorem unit_factors (h : Bound report) :
    ∀ factor ∈ report.imageSmith.invariantFactors.take report.torsionStart, factor = 1 := by
  intro factor hfactor
  rw [h.factors, (factorsOf_eq h.image.equations.canonical).2.1, ← List.map_take,
    List.take_range] at hfactor
  obtain ⟨i, hi, rfl⟩ := List.mem_map.1 hfactor
  have hlt := List.mem_range.1 hi
  exact h.divided.units i (by omega)

/-- What the generators of a report are. -/
structure Generated (report : VerifiedTerminalRelativeHomology)
    (generators : VerifiedTerminalRelativeHomologyGenerators) : Prop where
  homology_eq : generators.homology = report
  torsionCount_eq : generators.torsionCount = report.torsionInvariantFactors.length
  cycles : Written report.transport.outgoing.matrix.cols (report.cycleRank - report.torsionStart)
    (liftedValue report) (grid report.transport.outgoing.matrix.cols
      (report.cycleRank - report.torsionStart)) generators.cycleRepresentatives
  bounding : Written report.transport.incoming.matrix.cols report.torsionInvariantFactors.length
    (fillingValue report) (grid report.transport.incoming.matrix.cols
      report.torsionInvariantFactors.length) generators.torsionBoundingChains

theorem generators_ensures (h : Bound report) (budget : HomologyGeneratorBudget) :
    Ensures OutsideSelfChecks (Generated report)
      (verifyTerminalRelativeHomologyGeneratorsWithCheckpoint machine report budget
        checkpoint) := by
  obtain ⟨hrows, hextent, -⟩ := h.extents
  obtain ⟨hsourceRows, hsourceCols, hleftRows, hleftCols, hrightRows, hrightCols, houtRows,
    houtCols⟩ := h.shapes
  have hkernel := h.kernelRows
  have hstart := h.divided.start
  have hcount : report.torsionStart + (report.cycleRank - report.torsionStart) =
      report.cycleRank := by
    omega
  have htorsion : report.boundaryRank - report.torsionStart =
      report.torsionInvariantFactors.length := by
    omega
  have hlength : report.boundaryRank = report.imageSmith.invariantFactors.length := by
    rw [h.factors]
    exact h.image.rank
  unfold verifyTerminalRelativeHomologyGeneratorsWithCheckpoint
  dsimp only
  rw [htorsion]
  apply Ensures.bind (Ensures.refuseIf _)
  · intro _ _
    apply Ensures.bind (Ensures.refuseIf _)
    · intro _ _
      apply Ensures.bind (exact_outside _)
      intro cycleEntries _
      apply Ensures.bind (exact_outside _)
      intro boundingEntries _
      apply Ensures.bind (exact_outside _)
      intro outputEntries _
      apply Ensures.bind (Ensures.refuseIf fun _ => trivial)
      intro _ _
      apply Ensures.bind (exact_outside _)
      intro retainedEntries _
      apply Ensures.bind (Ensures.refuseIf fun _ => trivial)
      intro _ _
      apply Ensures.bind (exact_outside _)
      intro scalarOperations _
      apply Ensures.bind (Ensures.refuseIf fun _ => trivial)
      intro _ _
      apply Ensures.bind (exact_outside _)
      intro workItems _
      apply Ensures.bind (Ensures.poll trivial)
      intro _ _
      apply Ensures.bind (Ensures.poll trivial)
      intro _ _
      apply Ensures.bind (exact_outside _)
      intro _ _
      apply Ensures.bind (exact_outside _)
      intro _ _
      apply Ensures.bind (StageRun.items_ensures (I := Written report.transport.outgoing.matrix.cols
          (report.cycleRank - report.torsionStart) (liftedValue report)) (fun _ => trivial)
        (fun _ _ _ _ _ => trivial)
        Written.zeroed fun passed place later matrix completed hplaces hwritten =>
          liftChain_within h hcount hwritten (mem_grid_of_append hplaces).1
            (mem_grid_of_append hplaces).2 completed)
      rintro ⟨cycles, progress⟩ hcycles
      apply Ensures.bind (StageRun.items_ensures (I := Written report.transport.incoming.matrix.cols
          report.torsionInvariantFactors.length (fillingValue report)) (fun _ => trivial)
        (fun _ _ _ _ _ => trivial)
        Written.zeroed fun passed place later matrix completed hplaces hwritten =>
          fillTorsion_within h hwritten (mem_grid_of_append hplaces).1
            (mem_grid_of_append hplaces).2 completed)
      rintro ⟨bounding, progress⟩ hbounding
      apply Ensures.bind (StageRun.items_ensures (I := fun _ _ => True) (fun _ => trivial)
        (fun _ _ _ _ _ => trivial) trivial fun passed place later _ completed hplaces _ =>
          verifyCycle_within h hcount hcycles (mem_grid_of_append hplaces).1
            (mem_grid_of_append hplaces).2 completed)
      rintro ⟨_, progress⟩ -
      apply Ensures.bind (StageRun.items_ensures (I := fun _ _ => True) (fun _ => trivial)
        (fun _ _ _ _ _ => trivial) trivial fun passed place later _ completed hplaces _ =>
          verifyBoundaryOrder_within h hcount hcycles hbounding (mem_grid_of_append hplaces).1
            (mem_grid_of_append hplaces).2 completed)
      rintro ⟨_, progress⟩ -
      apply Ensures.bind (Ensures.poll trivial)
      intro _ _
      exact Ensures.pure ⟨rfl, rfl, hcycles, hbounding⟩
    · rintro (⟨factor, hmem, hne⟩ | ⟨factor, hmem, hle⟩)
      · exact absurd (unit_factors h factor hmem) hne
      · exact absurd ((h.divided.torsion_chain h.image rfl).1 factor hmem) (not_lt.2 hle)
  · intro hshapes
    apply hshapes
    have hrank : report.transport.outgoingSmith.rank = report.transport.outgoingRank := rfl
    refine ⟨h.inner.symm, by omega, by omega, hsourceRows, hsourceCols, hleftRows, hleftCols,
      hrightRows, hrightCols, houtRows, houtCols, hlength, by omega, by omega⟩

theorem relation_eq (h : Bound report) (j : ℕ) :
    relationAt report.transport.incoming.matrix.cols
      (fun i => report.imageSmith.witness.diagonal.value i i) (report.torsionStart + j) =
      report.torsionInvariantFactors.getD j 0 := by
  obtain ⟨-, hextent, hzeros⟩ := h.extents
  unfold relationAt
  rcases Nat.lt_or_ge j report.torsionInvariantFactors.length with hj | hj
  · rw [if_pos (by omega), order_eq h hj]
  · dsimp only
    rw [hzeros _ (by omega), ite_self, List.getD_eq_getElem?_getD, List.getElem?_eq_none hj,
      Option.getD_none]

/-- The columns are cycles that generate the homology, the multiples of the first ones by the
orders are filled, and a combination is a boundary only by its orders. -/
structure Generates (outgoing incoming : ExactIntegerMatrix) (orders : List ℤ)
    (generators : VerifiedTerminalRelativeHomologyGenerators) : Prop where
  count : generators.generatorCount = orders.length + generators.freeGeneratorCount
  kinds : ∀ column < generators.generatorCount, generators.generatorKind column =
    some (if column < orders.length then .torsion (orders.getD column 0) else .free)
  cycles : outgoing.toMatrix outgoing.rows outgoing.cols *
    generators.cycleRepresentatives.toMatrix outgoing.cols generators.generatorCount = 0
  fillings : ∀ (i : Fin outgoing.cols) (j : Fin orders.length),
    (incoming.toMatrix outgoing.cols incoming.cols *
      generators.torsionBoundingChains.toMatrix incoming.cols orders.length) i j =
      orders.get j * generators.cycleRepresentatives.value i j
  generate : ∀ x, outgoing.toMatrix outgoing.rows outgoing.cols *ᵥ x = 0 → ∃ γ y,
    generators.cycleRepresentatives.toMatrix outgoing.cols generators.generatorCount *ᵥ γ +
      incoming.toMatrix outgoing.cols incoming.cols *ᵥ y = x
  relations : ∀ γ, (∃ y, incoming.toMatrix outgoing.cols incoming.cols *ᵥ y =
      generators.cycleRepresentatives.toMatrix outgoing.cols generators.generatorCount *ᵥ γ) ↔
    ∀ j : Fin generators.generatorCount, orders.getD j 0 ∣ γ j

theorem Generated.generatorCount_eq {generators : VerifiedTerminalRelativeHomologyGenerators}
    (h : Bound report) (hgenerated : Generated report generators) :
    report.torsionStart + generators.generatorCount = report.cycleRank := by
  obtain ⟨hrows, -, -⟩ := h.extents
  have hcols : generators.generatorCount = report.cycleRank - report.torsionStart :=
    hgenerated.cycles.cols_eq
  omega

theorem Generated.freeCount {generators : VerifiedTerminalRelativeHomologyGenerators}
    (h : Bound report) (hgenerated : Generated report generators) :
    report.boundaryRank + generators.freeGeneratorCount = report.cycleRank := by
  obtain ⟨hrows, -, -⟩ := h.extents
  have hcount := hgenerated.generatorCount_eq h
  have hstart := h.divided.start
  rw [VerifiedTerminalRelativeHomologyGenerators.freeGeneratorCount, hgenerated.torsionCount_eq]
  omega

theorem Generated.generates {generators : VerifiedTerminalRelativeHomologyGenerators}
    (h : Bound report) (hgenerated : Generated report generators) :
    Generates report.transport.outgoing.matrix report.transport.incoming.matrix
      report.torsionInvariantFactors generators := by
  obtain ⟨hrows, hextent, -⟩ := h.extents
  have hcols : generators.generatorCount = report.cycleRank - report.torsionStart :=
    hgenerated.cycles.cols_eq
  have hq := hgenerated.generatorCount_eq h
  have hpresentation := h.presented
  have hcolumns : generators.cycleRepresentatives.toMatrix report.transport.outgoing.matrix.cols
      generators.generatorCount =
      (presentationColumns report.transport.outgoingSmith report.imageSmith
        h.kernelRows).submatrix id (later hq) := by
    ext i j
    rw [Matrix.submatrix_apply, liftedValue_eq h _ _ (val_later hq j)]
    exact hgenerated.cycles.value_eq i.2 (hcols ▸ j.2)
  refine ⟨?_, ?_, ?_, ?_, ?_, ?_⟩
  · rw [VerifiedTerminalRelativeHomologyGenerators.freeGeneratorCount, hgenerated.torsionCount_eq]
    omega
  · intro column hcolumn
    rw [VerifiedTerminalRelativeHomologyGenerators.generatorKind, if_neg (not_le.2 hcolumn),
      hgenerated.torsionCount_eq, hgenerated.homology_eq, torsion_getD]
    split_ifs
    · rfl
    · rfl
  · rw [hcolumns]
    ext i j
    exact congrFun (congrFun hpresentation.cycles i) (later hq j)
  · intro i j
    have hsum := filling_sum h i.2 j.2
    rw [List.getD_eq_getElem?_getD, List.getElem?_eq_getElem j.2, Option.getD_some,
      ← hgenerated.cycles.value_eq i.2 (by omega), Finset.sum_range] at hsum
    rw [Matrix.mul_apply]
    refine Eq.trans ?_ hsum
    apply Finset.sum_congr rfl
    intro k _
    rw [← hgenerated.bounding.value_eq k.2 j.2]
    rfl
  · intro x hx
    -- only the coordinates at units are taken off
    let a : Fin report.transport.incoming.matrix.cols → ℤ := fun j =>
      if hj : j.val < report.torsionStart then
        (presentationRows report.transport.outgoingSmith report.imageSmith h.kernelRows *ᵥ x)
          ⟨j, by omega⟩
      else 0
    rw [hcolumns]
    refine ⟨_, _, hpresentation.generators_decomposition hq hx (a := a) ?_⟩
    intro i hi
    have hlt : i.val < report.transport.incoming.matrix.cols := by omega
    have ha : a ⟨i, hlt⟩ = (presentationRows report.transport.outgoingSmith report.imageSmith
      h.kernelRows *ᵥ x) i := dif_pos hi
    rw [rectDiagonal_mulVec, dif_pos hlt, ha, h.divided.units i hi, one_mul]
  · intro γ
    rw [hcolumns, hpresentation.generators_boundary_iff hq]
    apply forall_congr'
    intro j
    rw [relation_eq h]

end Exact

/-- The generators of a report that returned are exact, and their self-checks never fail. -/
theorem homology_generators_exact {machine machine' machine'' verifier verifier' : Machine}
    {source source' : ExactIntegerMatrix} {witness witness' : SmithNormalFormWitness}
    {algebraBudget algebraBudget' : ExactAlgebraBudget}
    {smith imageSmith : VerifiedSmithNormalForm}
    {outgoing incoming : TerminalRelativeBoundaryMatrix} {kernelBudget : KernelCoordinateBudget}
    {budget : HomologyDecompositionBudget} {generatorBudget : HomologyGeneratorBudget}
    {checkpoint checkpoint' checkpoint'' : Checkpoint} {seen seen' seen'' last last' : List String}
    {transport : VerifiedTerminalRelativeKernelTransport}
    {report : VerifiedTerminalRelativeHomology}
    (hsmith : verifier.verifySmithNormalForm source witness algebraBudget = .ok smith)
    (htransport : verifyTerminalRelativeKernelTransportWithCheckpoint machine outgoing incoming
      smith kernelBudget checkpoint seen = .ok (transport, last))
    (himage : verifier'.verifySmithNormalForm source' witness' algebraBudget' = .ok imageSmith)
    (hreport : verifyTerminalRelativeHomologyWithCheckpoint machine' transport imageSmith budget
      checkpoint' seen' = .ok (report, last')) :
    (∀ field, verifyTerminalRelativeHomologyGeneratorsWithCheckpoint machine'' report
      generatorBudget checkpoint'' seen'' ≠ .error (.homologyGeneratorInvariantLost field)) ∧
    (∀ stage row col expected actual, verifyTerminalRelativeHomologyGeneratorsWithCheckpoint
      machine'' report generatorBudget checkpoint'' seen'' ≠
        .error (.homologyGeneratorVerificationMismatch stage row col expected actual)) ∧
    ∀ generators last'', verifyTerminalRelativeHomologyGeneratorsWithCheckpoint machine'' report
      generatorBudget checkpoint'' seen'' = .ok (generators, last'') →
        Generates outgoing.matrix incoming.matrix report.torsionInvariantFactors generators := by
  obtain ⟨hbound, rfl, rfl⟩ := bound_of_returned hsmith htransport himage hreport
  have hensures : Ensures OutsideSelfChecks (Generated report)
      (verifyTerminalRelativeHomologyGeneratorsWithCheckpoint machine'' report generatorBudget
        checkpoint'') := generators_ensures hbound generatorBudget
  refine ⟨fun field herror => hensures.of_error herror,
    fun stage row col expected actual herror => hensures.of_error herror,
    fun generators last'' hok => (hensures.of_ok hok).generates hbound⟩

def loopGenerators : VerifiedTerminalRelativeHomologyGenerators where
  homology := loopReport
  cycleRepresentatives := ⟨2, 1, [0, -1], rfl⟩
  torsionBoundingChains := ⟨2, 1, [-1, 1], rfl⟩
  torsionCount := 1
  workItems := 6
  scalarOperations := 10
  retainedEntries := 52

theorem loopGenerators_returned :
    (verifyTerminalRelativeHomologyGeneratorsWithCheckpoint .unbounded loopReport ⟨4, 52, 10⟩
      (fun _ _ => true) []).map Prod.fst = .ok loopGenerators := by
  rfl

theorem homology_generators_loops :
    Generates loopEdges.matrix loopFaces.matrix [2] loopGenerators := by
  obtain ⟨last, htransport⟩ := exists_last loopTransport_returned
  obtain ⟨last', hreport⟩ := exists_last loopReport_returned
  obtain ⟨last'', hgenerators⟩ := exists_last loopGenerators_returned
  exact (homology_generators_exact loopSmith_verified htransport loopImageSmith_verified
    hreport).2.2 _ _ hgenerators

end FrankenSim.Relative
