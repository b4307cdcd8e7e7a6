import FrankenSim.Smith.Construction
import FrankenSim.Smith.Witnesses
import FrankenSim.Library.LineOperations

/-!
# Elementary operations of the construction

Every operation of the construction changes the diagonal and one transform by the same
line operation and the inverse transform by the opposite one, or it refuses because a
named limit is reached.
-/
namespace FrankenSim.Smith

open Library

theorem ExactIntegerMatrix.block_value (matrix : ExactIntegerMatrix) (m n : ℕ) :
    block m n matrix.value = matrix.toMatrix m n := rfl

/-- The numbers that changing an entry by a multiple of another one passes through. -/
def Combines (combine : ℤ → ℤ → ℤ) (target source multiplier value : ℤ) : Prop :=
  value = source * multiplier ∨ value = combine target (source * multiplier)

namespace SmithConstructionState

/-- The numbers of a change of a row, with the opposite change of a column of the inverse. -/
inductive RowChange (s : SmithConstructionState) (combine opposite : ℤ → ℤ → ℤ)
    (target source : ℕ) (multiplier : ℤ) : MatrixRole → ℕ → ℕ → ℤ → Prop
  | diagonal {col : ℕ} {value : ℤ} (hcol : col < s.diagonal.cols)
      (h : Combines combine (s.diagonal.value target col) (s.diagonal.value source col) multiplier
        value) : RowChange s combine opposite target source multiplier .diagonal target col value
  | left {col : ℕ} {value : ℤ} (hcol : col < s.left.cols)
      (h : Combines combine (s.left.value target col) (s.left.value source col) multiplier value) :
      RowChange s combine opposite target source multiplier .leftTransform target col value
  | leftInverse {row : ℕ} {value : ℤ} (hrow : row < s.leftInverse.rows)
      (h : Combines opposite (s.leftInverse.value row source) (s.leftInverse.value row target)
        multiplier value) :
      RowChange s combine opposite target source multiplier .leftInverse row source value

/-- The numbers of a change of a column, with the opposite change of a row of the inverse. -/
inductive ColumnChange (s : SmithConstructionState) (target source : ℕ) (multiplier : ℤ) :
    MatrixRole → ℕ → ℕ → ℤ → Prop
  | diagonal {row : ℕ} {value : ℤ} (hrow : row < s.diagonal.rows)
      (h : Combines (· - ·) (s.diagonal.value row target) (s.diagonal.value row source) multiplier
        value) : ColumnChange s target source multiplier .diagonal row target value
  | right {row : ℕ} {value : ℤ} (hrow : row < s.right.rows)
      (h : Combines (· - ·) (s.right.value row target) (s.right.value row source) multiplier
        value) : ColumnChange s target source multiplier .rightTransform row target value
  | rightInverse {col : ℕ} {value : ℤ} (hcol : col < s.rightInverse.cols)
      (h : Combines (· + ·) (s.rightInverse.value source col) (s.rightInverse.value target col)
        multiplier value) : ColumnChange s target source multiplier .rightInverse source col value

/-- The numbers of a change of sign. -/
inductive SignChange (s : SmithConstructionState) (pivot : ℕ) : MatrixRole → ℕ → ℕ → ℤ → Prop
  | diagonal {col : ℕ} (hcol : col < s.diagonal.cols) :
      SignChange s pivot .diagonal pivot col (-s.diagonal.value pivot col)
  | left {col : ℕ} (hcol : col < s.left.cols) :
      SignChange s pivot .leftTransform pivot col (-s.left.value pivot col)
  | leftInverse {row : ℕ} (hrow : row < s.leftInverse.rows) :
      SignChange s pivot .leftInverse row pivot (-s.leftInverse.value row pivot)

/-- The numbers that a stage computes for an entry in a state. -/
inductive Computes (s : SmithConstructionState) :
    SmithConstructionStage → MatrixRole → ℕ → ℕ → ℤ → Prop
  | rowQuotient {pivot row : ℕ} (hlt : pivot < row) (hpos : 0 < s.diagonal.value pivot pivot) :
      Computes s .rowReduction .diagonal row pivot
        (s.diagonal.value row pivot / s.diagonal.value pivot pivot)
  | columnQuotient {stage : SmithConstructionStage} {pivot col : ℕ}
      (hstage : stage = .columnReduction ∨ stage = .divisibilityRepair) (hlt : pivot < col)
      (hpos : 0 < s.diagonal.value pivot pivot) :
      Computes s stage .diagonal pivot col
        (s.diagonal.value pivot col / s.diagonal.value pivot pivot)
  | scanQuotient {pivot row col : ℕ} (hrow : pivot < row) (hcol : pivot < col)
      (hpos : 0 < s.diagonal.value pivot pivot) :
      Computes s .divisibilityRepair .diagonal row col
        (s.diagonal.value row col / s.diagonal.value pivot pivot)
  | reduceRow {pivot row r c : ℕ} {role : MatrixRole} {value : ℤ} (hlt : pivot < row)
      (hpos : 0 < s.diagonal.value pivot pivot)
      (h : s.RowChange (· - ·) (· + ·) row pivot
        (s.diagonal.value row pivot / s.diagonal.value pivot pivot) role r c value) :
      Computes s .rowReduction role r c value
  | reduceColumn {stage : SmithConstructionStage} {pivot col r c : ℕ} {role : MatrixRole}
      {value : ℤ} (hstage : stage = .columnReduction ∨ stage = .divisibilityRepair)
      (hlt : pivot < col) (hpos : 0 < s.diagonal.value pivot pivot)
      (h : s.ColumnChange col pivot
        (s.diagonal.value pivot col / s.diagonal.value pivot pivot) role r c value) :
      Computes s stage role r c value
  | repair {pivot row r c : ℕ} {role : MatrixRole} {value : ℤ} (hlt : pivot < row)
      (h : s.RowChange (· + ·) (· - ·) pivot row 1 role r c value) :
      Computes s .divisibilityRepair role r c value
  | sign {pivot r c : ℕ} {role : MatrixRole} {value : ℤ}
      (hneg : s.diagonal.value pivot pivot < 0) (h : s.SignChange pivot role r c value) :
      Computes s .signNormalization role r c value

/-- The witness that a state would hand to the verifier. -/
def witness (s : SmithConstructionState) : SmithNormalFormWitness :=
  ⟨s.diagonal, s.left, s.leftInverse, s.right, s.rightInverse⟩

/-- A bound of the entry steps of one operation or inspection. -/
def updateSteps (s : SmithConstructionState) : ℕ :=
  2 * (s.diagonal.rows + s.diagonal.cols + max s.diagonal.rows s.diagonal.cols)

end SmithConstructionState

/-- The states that a run reaches and the numbers that it computes for an entry. -/
structure Trace where
  reached : SmithConstructionState → Prop
  computed : SmithConstructionStage → MatrixRole → ℕ → ℕ → ℤ → Prop

/-- A refusal of the construction that names a limit which the run has reached. -/
def ConstructionLimit (machine : Machine) (construction : SmithConstructionBudget)
    (verification : ExactAlgebraBudget) (source : ExactIntegerMatrix) (trace : Trace) :
    IntegralTopologyError → Prop
  | .smithConstructionLiveEntryBudgetExceeded requested max =>
      max = construction.maxLiveEntries ∧ (requested : ℕ∞) > max ∧
        requested = retainedEntries source.rows source.cols
  | .smithConstructionOperationBudgetExceeded requested max =>
      max = construction.maxElementaryOperations ∧ (requested : ℕ∞) > max ∧
        ∃ s, trace.reached s ∧ requested = s.elementaryOperations + 1
  | .smithConstructionEntryStepBudgetExceeded requested max =>
      max = construction.maxEntrySteps ∧ (requested : ℕ∞) > max ∧
        (requested ≤ source.rows * source.cols ∨
          ∃ s, trace.reached s ∧ ∃ steps ≤ s.updateSteps, requested = s.entrySteps + steps)
  | .smithConstructionCoefficientMagnitudeExceeded role row col magnitude max =>
      max = construction.maxAbsCoefficient ∧ (magnitude : ℕ∞) > max ∧
        (magnitude = 1 ∧ (0 < source.rows ∨ 0 < source.cols) ∨
          role = .source ∧ magnitude = (source.value row col).natAbs ∨
          ∃ stage value, trace.computed stage role row col value ∧ magnitude = value.natAbs)
  | .smithConstructionArithmeticOverflow stage role row col =>
      ∃ value, trace.computed stage role row col value ∧ machine.coefficient value = false
  | .retainedMatrixExceedsBudget _ rows cols entries =>
      (rows : ℕ∞) > verification.maxRows ∨ (cols : ℕ∞) > verification.maxCols ∨
        (entries : ℕ∞) > verification.maxMatrixEntries
  | .matrixEntryBudgetExceeded requested max =>
      max = verification.maxMatrixEntries ∧ (requested : ℕ∞) > max
  | .retainedEntryBudgetExceeded requested max =>
      max = verification.maxRetainedEntries ∧ (requested : ℕ∞) > max
  | .workspaceEntryBudgetExceeded requested max =>
      max = verification.maxWorkspaceEntries ∧ (requested : ℕ∞) > max
  | .scalarWorkBudgetExceeded requested max =>
      max = verification.maxScalarOperations ∧ (requested : ℕ∞) > max
  | .allocationRefused phase entries => machine.allocates phase entries = false
  | .arithmeticOverflow stage row col term =>
      ∃ s, trace.reached s ∧ OverflowsAt machine (operands source s.witness stage) row col term
  | .workPlanOverflow _ =>
      (∃ n ≤ plannedWork source.rows source.cols, machine.count n = false) ∨
        (∃ n ≤ retainedEntries source.rows source.cols, machine.extent n = false) ∨
        ∃ s, trace.reached s ∧ (machine.count (s.elementaryOperations + 1) = false ∨
          ∃ n ≤ s.updateSteps, machine.extent n = false ∨ machine.count n = false ∨
            machine.count (s.entrySteps + n) = false)
  | _ => False

/-- The faults of a computed number are among the causes. -/
def Accounted (machine : Machine) (construction : SmithConstructionBudget)
    (cause : IntegralTopologyError → Prop) (stage : SmithConstructionStage) (role : MatrixRole)
    (row col : ℕ) (value : ℤ) : Prop :=
  (machine.coefficient value = false →
    cause (.smithConstructionArithmeticOverflow stage role row col)) ∧
  ((value.natAbs : ℕ∞) > construction.maxAbsCoefficient →
    cause (.smithConstructionCoefficientMagnitudeExceeded role row col value.natAbs
      construction.maxAbsCoefficient))

section Matrices

variable {cause : IntegralTopologyError → Prop} {machine : Machine}
  {construction : SmithConstructionBudget} {stage : SmithConstructionStage} {role : MatrixRole}

/-- Two matrices with the same extents. -/
def SameExtents (matrix matrix' : ExactIntegerMatrix) : Prop :=
  matrix'.rows = matrix.rows ∧ matrix'.cols = matrix.cols

theorem updateRow_within {matrix : ExactIntegerMatrix} {row : ℕ}
    {compute : ExactIntegerMatrix → ℕ → Except IntegralTopologyError ℤ} {g : ℕ → ℤ}
    (hrow : row < matrix.rows) (hcompute : ∀ current, SameExtents matrix current →
      ∀ col < matrix.cols, (∀ r < matrix.rows, current.entry r col = matrix.value r col) →
        Within cause (· = g col) (compute current col)) :
    Within cause (fun result => SameExtents matrix result ∧ ∀ r c, result.value r c =
      if r = row ∧ c < matrix.cols then g c else matrix.value r c)
      (matrix.updateRow row compute) := by
  unfold ExactIntegerMatrix.updateRow
  apply Within.range_foldlM (I := fun col current => SameExtents matrix current ∧
    ∀ r c, current.value r c = if r = row ∧ c < col then g c else matrix.value r c)
  · exact ⟨⟨rfl, rfl⟩, fun r c => by rw [if_neg (by omega)]⟩
  rintro col hcol current ⟨hsame, hvalue⟩
  have hcolumn : ∀ r < matrix.rows, current.entry r col = matrix.value r col := by
    intro r hr
    rw [← ExactIntegerMatrix.value_of_lt (hsame.1 ▸ hr) (hsame.2 ▸ hcol), hvalue, if_neg (by omega)]
  apply Within.bind (hcompute current hsame col hcol hcolumn)
  rintro _ rfl
  apply Within.ok
  refine ⟨hsame, fun r c => ?_⟩
  rw [ExactIntegerMatrix.value_setEntry _ _ (hsame.1 ▸ hrow) (hsame.2 ▸ hcol), hvalue]
  by_cases hr : r = row
  · rcases Nat.lt_trichotomy c col with hc | hc | hc
    · rw [if_neg (by omega), if_pos (by omega), if_pos (by omega)]
    · rw [if_pos (by omega), if_pos (by omega), hc]
    · rw [if_neg (by omega), if_neg (by omega), if_neg (by omega)]
  · rw [if_neg (by tauto), if_neg (by tauto), if_neg (by tauto)]

theorem updateColumn_within {matrix : ExactIntegerMatrix} {col : ℕ}
    {compute : ExactIntegerMatrix → ℕ → Except IntegralTopologyError ℤ} {g : ℕ → ℤ}
    (hcol : col < matrix.cols) (hcompute : ∀ current, SameExtents matrix current →
      ∀ row < matrix.rows, (∀ c < matrix.cols, current.entry row c = matrix.value row c) →
        Within cause (· = g row) (compute current row)) :
    Within cause (fun result => SameExtents matrix result ∧ ∀ r c, result.value r c =
      if c = col ∧ r < matrix.rows then g r else matrix.value r c)
      (matrix.updateColumn col compute) := by
  unfold ExactIntegerMatrix.updateColumn
  apply Within.range_foldlM (I := fun row current => SameExtents matrix current ∧
    ∀ r c, current.value r c = if c = col ∧ r < row then g r else matrix.value r c)
  · exact ⟨⟨rfl, rfl⟩, fun r c => by rw [if_neg (by omega)]⟩
  rintro row hrow current ⟨hsame, hvalue⟩
  have hline : ∀ c < matrix.cols, current.entry row c = matrix.value row c := by
    intro c hc
    rw [← ExactIntegerMatrix.value_of_lt (hsame.1 ▸ hrow) (hsame.2 ▸ hc), hvalue, if_neg (by omega)]
  apply Within.bind (hcompute current hsame row hrow hline)
  rintro _ rfl
  apply Within.ok
  refine ⟨hsame, fun r c => ?_⟩
  rw [ExactIntegerMatrix.value_setEntry _ _ (hsame.1 ▸ hrow) (hsame.2 ▸ hcol), hvalue]
  by_cases hc : c = col
  · rcases Nat.lt_trichotomy r row with hr | hr | hr
    · rw [if_neg (by omega), if_pos (by omega), if_pos (by omega)]
    · rw [if_pos (by omega), if_pos (by omega), hr]
    · rw [if_neg (by omega), if_neg (by omega), if_neg (by omega)]
  · rw [if_neg (by tauto), if_neg (by tauto), if_neg (by tauto)]

theorem checkedConstructionCoefficient_within {value : ℤ} {row col : ℕ}
    (h : Accounted machine construction cause stage role row col value) :
    Within cause (· = value)
      (Machine.checkedConstructionCoefficient value construction.maxAbsCoefficient role row col) := by
  unfold Machine.checkedConstructionCoefficient
  apply Within.bind (refuseIf_within h.2)
  intro _ _
  exact Within.ok rfl

theorem checkedCombination_within {combine : ℤ → ℤ → ℤ} {target source multiplier : ℤ}
    {row col : ℕ} (h : ∀ value, Combines combine target source multiplier value →
      Accounted machine construction cause stage role row col value) :
    Within cause (· = combine target (source * multiplier))
      (machine.checkedCombination combine target source multiplier stage role row col
        construction.maxAbsCoefficient) := by
  unfold Machine.checkedCombination
  apply Within.bind (checkedCoefficient_within (h _ (Or.inl rfl)).1)
  rintro _ rfl
  apply Within.bind (checkedCoefficient_within (h _ (Or.inr rfl)).1)
  rintro _ rfl
  exact checkedConstructionCoefficient_within (h _ (Or.inr rfl))

theorem checkedNegation_within {value : ℤ} {row col : ℕ}
    (h : Accounted machine construction cause stage role row col (-value)) :
    Within cause (· = -value)
      (machine.checkedNegation value stage role row col construction.maxAbsCoefficient) := by
  unfold Machine.checkedNegation
  apply Within.bind (checkedCoefficient_within h.1)
  rintro _ rfl
  exact checkedConstructionCoefficient_within h

/-- The result of a line operation on the rows of a matrix. -/
def ActsOnRows (op : LineOperation) (matrix result : ExactIntegerMatrix) : Prop :=
  SameExtents matrix result ∧ result.value = op.act matrix.value

/-- The result of a line operation on the columns of a matrix. -/
def ActsOnColumns (op : LineOperation) (matrix result : ExactIntegerMatrix) : Prop :=
  SameExtents matrix result ∧ result.value = flip (op.act (flip matrix.value))

/-- A row recomputed to the values of an operation that leaves the other rows alone. -/
theorem actsOnRows_of_values {op : LineOperation} {matrix result : ExactIntegerMatrix} {row : ℕ}
    {g : ℕ → ℤ} (hsame : SameExtents matrix result)
    (hvalue : ∀ r c, result.value r c = if r = row ∧ c < matrix.cols then g c else matrix.value r c)
    (hg : ∀ c, g c = op.act matrix.value row c)
    (hout : ∀ c, matrix.cols ≤ c → op.act matrix.value row c = 0)
    (hother : ∀ r c, r ≠ row → op.act matrix.value r c = matrix.value r c) :
    ActsOnRows op matrix result := by
  refine ⟨hsame, ?_⟩
  funext r c
  rw [hvalue]
  by_cases hr : r = row
  · subst hr
    by_cases hc : c < matrix.cols
    · rw [if_pos ⟨rfl, hc⟩, hg]
    · rw [if_neg (by tauto), hout c (by omega), ExactIntegerMatrix.value_of_not_lt (by omega)]
  · rw [if_neg (by tauto), hother r c hr]

theorem actsOnColumns_of_values {op : LineOperation} {matrix result : ExactIntegerMatrix} {col : ℕ}
    {g : ℕ → ℤ} (hsame : SameExtents matrix result)
    (hvalue : ∀ r c, result.value r c = if c = col ∧ r < matrix.rows then g r else matrix.value r c)
    (hg : ∀ r, g r = op.act (flip matrix.value) col r)
    (hout : ∀ r, matrix.rows ≤ r → op.act (flip matrix.value) col r = 0)
    (hother : ∀ c r, c ≠ col → op.act (flip matrix.value) c r = matrix.value r c) :
    ActsOnColumns op matrix result := by
  refine ⟨hsame, ?_⟩
  funext r c
  rw [hvalue, flip]
  by_cases hc : c = col
  · subst hc
    by_cases hr : r < matrix.rows
    · rw [if_pos ⟨rfl, hr⟩, hg]
    · rw [if_neg (by tauto), hout r (by omega), ExactIntegerMatrix.value_of_not_lt (by omega)]
  · rw [if_neg (by tauto), hother c r hc]

/-- A row changed by a multiple of another row. -/
theorem combineRow_within {matrix : ExactIntegerMatrix} {target source : ℕ} {multiplier k : ℤ}
    {combine : ℤ → ℤ → ℤ} (hcombine : ∀ a b, combine a (b * multiplier) = a - k * b)
    (ht : target < matrix.rows) (hs : source < matrix.rows)
    (hcause : ∀ col < matrix.cols, ∀ value, Combines combine (matrix.value target col)
      (matrix.value source col) multiplier value →
      Accounted machine construction cause stage role target col value) :
    Within cause
      (ActsOnRows (.subtract target source k) matrix)
      (matrix.updateRow target fun current col =>
        machine.checkedCombination combine (current.entry target col) (current.entry source col)
          multiplier stage role target col construction.maxAbsCoefficient) := by
  apply (updateRow_within (g := fun c => matrix.value target c - k * matrix.value source c)
    ht _).imp
  · rintro result ⟨hsame, hvalue⟩
    apply actsOnRows_of_values hsame hvalue
    · intro c
      exact (if_pos rfl).symm
    · intro c hc
      simp only [LineOperation.act, if_true]
      rw [ExactIntegerMatrix.value_of_not_lt (by omega), ExactIntegerMatrix.value_of_not_lt (by omega)]
      ring
    · intro r c hr
      exact if_neg hr
  · intro current _ col hcol hentry
    rw [hentry target ht, hentry source hs, ← hcombine]
    exact checkedCombination_within (hcause col hcol)

/-- A column changed by a multiple of another column. -/
theorem combineColumn_within {matrix : ExactIntegerMatrix} {target source : ℕ} {multiplier k : ℤ}
    {combine : ℤ → ℤ → ℤ} (hcombine : ∀ a b, combine a (b * multiplier) = a - k * b)
    (ht : target < matrix.cols) (hs : source < matrix.cols)
    (hcause : ∀ row < matrix.rows, ∀ value, Combines combine (matrix.value row target)
      (matrix.value row source) multiplier value →
      Accounted machine construction cause stage role row target value) :
    Within cause
      (ActsOnColumns (.subtract target source k) matrix)
      (matrix.updateColumn target fun current row =>
        machine.checkedCombination combine (current.entry row target) (current.entry row source)
          multiplier stage role row target construction.maxAbsCoefficient) := by
  apply (updateColumn_within (g := fun r => matrix.value r target - k * matrix.value r source)
    ht _).imp
  · rintro result ⟨hsame, hvalue⟩
    apply actsOnColumns_of_values hsame hvalue
    · intro r
      exact (if_pos rfl).symm
    · intro r hr
      simp only [LineOperation.act, if_true, flip]
      rw [ExactIntegerMatrix.value_of_not_lt (by omega), ExactIntegerMatrix.value_of_not_lt (by omega)]
      ring
    · intro c r hc
      exact if_neg hc
  · intro current _ row hrow hentry
    rw [hentry target ht, hentry source hs, ← hcombine]
    exact checkedCombination_within (hcause row hrow)

theorem checkedSubtractMatrixRow_within {matrix : ExactIntegerMatrix} {target source : ℕ}
    {multiplier : ℤ} (ht : target < matrix.rows) (hs : source < matrix.rows)
    (hcause : ∀ col < matrix.cols, ∀ value, Combines (· - ·) (matrix.value target col)
      (matrix.value source col) multiplier value →
      Accounted machine construction cause stage role target col value) :
    Within cause
      (ActsOnRows (.subtract target source multiplier) matrix)
      (machine.checkedSubtractMatrixRow matrix target source multiplier stage role
        construction.maxAbsCoefficient) :=
  combineRow_within (fun a b => by rw [mul_comm b]) ht hs hcause

theorem checkedAddMatrixRow_within {matrix : ExactIntegerMatrix} {target source : ℕ}
    {multiplier : ℤ} (ht : target < matrix.rows) (hs : source < matrix.rows)
    (hcause : ∀ col < matrix.cols, ∀ value, Combines (· + ·) (matrix.value target col)
      (matrix.value source col) multiplier value →
      Accounted machine construction cause stage role target col value) :
    Within cause
      (ActsOnRows (.subtract target source (-multiplier)) matrix)
      (machine.checkedAddMatrixRow matrix target source multiplier stage role
        construction.maxAbsCoefficient) :=
  combineRow_within (fun a b => by ring) ht hs hcause

theorem checkedSubtractMatrixColumn_within {matrix : ExactIntegerMatrix} {target source : ℕ}
    {multiplier : ℤ} (ht : target < matrix.cols) (hs : source < matrix.cols)
    (hcause : ∀ row < matrix.rows, ∀ value, Combines (· - ·) (matrix.value row target)
      (matrix.value row source) multiplier value →
      Accounted machine construction cause stage role row target value) :
    Within cause
      (ActsOnColumns (.subtract target source multiplier) matrix)
      (machine.checkedSubtractMatrixColumn matrix target source multiplier stage role
        construction.maxAbsCoefficient) :=
  combineColumn_within (fun a b => by rw [mul_comm b]) ht hs hcause

theorem checkedAddMatrixColumn_within {matrix : ExactIntegerMatrix} {target source : ℕ}
    {multiplier : ℤ} (ht : target < matrix.cols) (hs : source < matrix.cols)
    (hcause : ∀ row < matrix.rows, ∀ value, Combines (· + ·) (matrix.value row target)
      (matrix.value row source) multiplier value →
      Accounted machine construction cause stage role row target value) :
    Within cause
      (ActsOnColumns (.subtract target source (-multiplier)) matrix)
      (machine.checkedAddMatrixColumn matrix target source multiplier stage role
        construction.maxAbsCoefficient) :=
  combineColumn_within (fun a b => by ring) ht hs hcause

theorem checkedNegateMatrixRow_within {matrix : ExactIntegerMatrix} {row : ℕ}
    (hrow : row < matrix.rows) (hcause : ∀ col < matrix.cols,
      Accounted machine construction cause stage role row col (-matrix.value row col)) :
    Within cause (ActsOnRows (.negate row) matrix)
      (machine.checkedNegateMatrixRow matrix row stage role construction.maxAbsCoefficient) := by
  unfold Machine.checkedNegateMatrixRow
  apply (updateRow_within (g := fun c => -matrix.value row c) hrow _).imp
  · rintro result ⟨hsame, hvalue⟩
    apply actsOnRows_of_values hsame hvalue
    · intro c
      exact (if_pos rfl).symm
    · intro c hc
      simp only [LineOperation.act, if_true]
      rw [ExactIntegerMatrix.value_of_not_lt (by omega), neg_zero]
    · intro r c hr
      exact if_neg hr
  · intro current _ col hcol hentry
    rw [hentry row hrow]
    exact checkedNegation_within (hcause col hcol)

theorem checkedNegateMatrixColumn_within {matrix : ExactIntegerMatrix} {col : ℕ}
    (hcol : col < matrix.cols) (hcause : ∀ row < matrix.rows,
      Accounted machine construction cause stage role row col (-matrix.value row col)) :
    Within cause (ActsOnColumns (.negate col) matrix)
      (machine.checkedNegateMatrixColumn matrix col stage role construction.maxAbsCoefficient) := by
  unfold Machine.checkedNegateMatrixColumn
  apply (updateColumn_within (g := fun r => -matrix.value r col) hcol _).imp
  · rintro result ⟨hsame, hvalue⟩
    apply actsOnColumns_of_values hsame hvalue
    · intro r
      exact (if_pos rfl).symm
    · intro r hr
      simp only [LineOperation.act, if_true, flip]
      rw [ExactIntegerMatrix.value_of_not_lt (by omega), neg_zero]
    · intro c r hc
      exact if_neg hc
  · intro current _ row hrow hentry
    rw [hentry col hcol]
    exact checkedNegation_within (hcause row hrow)

theorem swapEntries_value {matrix : ExactIntegerMatrix} {row col row' col' : ℕ}
    (hrow : row < matrix.rows) (hcol : col < matrix.cols) (hrow' : row' < matrix.rows)
    (hcol' : col' < matrix.cols) (r c : ℕ) :
    (matrix.swapEntries row col row' col').value r c =
      if r = row' ∧ c = col' then matrix.value row col
      else if r = row ∧ c = col then matrix.value row' col' else matrix.value r c := by
  unfold ExactIntegerMatrix.swapEntries
  rw [ExactIntegerMatrix.value_setEntry _ _ (by exact hrow') (by exact hcol'),
    ExactIntegerMatrix.value_setEntry _ _ hrow hcol, ExactIntegerMatrix.value_of_lt hrow hcol,
    ExactIntegerMatrix.value_of_lt hrow' hcol']

theorem swapMatrixRows_acts {matrix : ExactIntegerMatrix} {first second : ℕ}
    (hf : first < matrix.rows) (hs : second < matrix.rows) :
    ActsOnRows (.swap first second) matrix (matrix.swapMatrixRows first second) := by
  have hloop (n : ℕ) (hn : n ≤ matrix.cols) :
      SameExtents matrix ((List.range n).foldl
        (fun current col => current.swapEntries first col second col) matrix) ∧
      ∀ r c, ((List.range n).foldl
        (fun current col => current.swapEntries first col second col) matrix).value r c =
        if c < n then (LineOperation.swap first second).act matrix.value r c
        else matrix.value r c := by
    induction n with
    | zero => exact ⟨⟨rfl, rfl⟩, fun r c => rfl⟩
    | succ n ih =>
      obtain ⟨hsame, hvalue⟩ := ih (by omega)
      rw [List.range_succ, List.foldl_append, List.foldl_cons, List.foldl_nil]
      refine ⟨hsame, fun r c => ?_⟩
      rw [swapEntries_value (hsame.1 ▸ hf) (hsame.2 ▸ hn) (hsame.1 ▸ hs) (hsame.2 ▸ hn)]
      simp only [hvalue, LineOperation.act]
      grind
  obtain ⟨hsame, hvalue⟩ := hloop matrix.cols le_rfl
  refine ⟨hsame, ?_⟩
  funext r c
  refine (hvalue r c).trans ?_
  split_ifs with hc
  · rfl
  · simp only [LineOperation.act]
    rw [ExactIntegerMatrix.value_of_not_lt (by omega), ExactIntegerMatrix.value_of_not_lt (by omega),
      ExactIntegerMatrix.value_of_not_lt (by omega)]
    split_ifs <;> rfl

theorem swapMatrixColumns_acts {matrix : ExactIntegerMatrix} {first second : ℕ}
    (hf : first < matrix.cols) (hs : second < matrix.cols) :
    ActsOnColumns (.swap first second) matrix (matrix.swapMatrixColumns first second) := by
  have hloop (n : ℕ) (hn : n ≤ matrix.rows) :
      SameExtents matrix ((List.range n).foldl
        (fun current row => current.swapEntries row first row second) matrix) ∧
      ∀ r c, ((List.range n).foldl
        (fun current row => current.swapEntries row first row second) matrix).value r c =
        if r < n then (LineOperation.swap first second).act (flip matrix.value) c r
        else matrix.value r c := by
    induction n with
    | zero => exact ⟨⟨rfl, rfl⟩, fun r c => rfl⟩
    | succ n ih =>
      obtain ⟨hsame, hvalue⟩ := ih (by omega)
      rw [List.range_succ, List.foldl_append, List.foldl_cons, List.foldl_nil]
      refine ⟨hsame, fun r c => ?_⟩
      rw [swapEntries_value (hsame.1 ▸ hn) (hsame.2 ▸ hf) (hsame.1 ▸ hn) (hsame.2 ▸ hs)]
      simp only [hvalue, LineOperation.act, flip]
      grind
  obtain ⟨hsame, hvalue⟩ := hloop matrix.rows le_rfl
  refine ⟨hsame, ?_⟩
  funext r c
  refine (hvalue r c).trans ?_
  split_ifs with hr
  · rfl
  · simp only [LineOperation.act, flip]
    rw [ExactIntegerMatrix.value_of_not_lt (by omega), ExactIntegerMatrix.value_of_not_lt (by omega),
      ExactIntegerMatrix.value_of_not_lt (by omega)]
    split_ifs <;> rfl

end Matrices

namespace SmithConstructionState

variable {machine : Machine} {construction : SmithConstructionBudget}
  {verification : ExactAlgebraBudget} {source : ExactIntegerMatrix} {trace : Trace}
  {self : SmithConstructionState}

/-- The extents of the five matrices and the budget of the run. -/
structure Shaped (rows cols : ℕ) (construction : SmithConstructionBudget)
    (s : SmithConstructionState) : Prop where
  diagonal : s.diagonal.rows = rows ∧ s.diagonal.cols = cols
  left : s.left.rows = rows ∧ s.left.cols = rows
  leftInverse : s.leftInverse.rows = rows ∧ s.leftInverse.cols = rows
  right : s.right.rows = cols ∧ s.right.cols = cols
  rightInverse : s.rightInverse.rows = cols ∧ s.rightInverse.cols = cols
  budget : s.budget = construction

/-- The same matrices and budget, with other counters. -/
structure SameMatrices (s s' : SmithConstructionState) : Prop where
  diagonal : s'.diagonal = s.diagonal
  left : s'.left = s.left
  leftInverse : s'.leftInverse = s.leftInverse
  right : s'.right = s.right
  rightInverse : s'.rightInverse = s.rightInverse
  budget : s'.budget = s.budget

/-- A line operation on the rows of the diagonal. -/
structure RowEffect (op : LineOperation) (s s' : SmithConstructionState) : Prop where
  diagonal : ActsOnRows op s.diagonal s'.diagonal
  left : ActsOnRows op s.left s'.left
  leftInverse : SameExtents s.leftInverse s'.leftInverse ∧
    s'.leftInverse.value = op.coact s.leftInverse.value
  right : s'.right = s.right
  rightInverse : s'.rightInverse = s.rightInverse
  budget : s'.budget = s.budget

/-- A line operation on the columns of the diagonal. -/
structure ColumnEffect (op : LineOperation) (s s' : SmithConstructionState) : Prop where
  diagonal : ActsOnColumns op s.diagonal s'.diagonal
  left : s'.left = s.left
  leftInverse : s'.leftInverse = s.leftInverse
  right : ActsOnColumns op s.right s'.right
  rightInverse : SameExtents s.rightInverse s'.rightInverse ∧
    s'.rightInverse.value = flip (op.coact (flip s.rightInverse.value))
  budget : s'.budget = s.budget

theorem SameMatrices.shaped {rows cols : ℕ} {s s' : SmithConstructionState}
    (h : SameMatrices s s') (hs : Shaped rows cols construction s) :
    Shaped rows cols construction s' := by
  refine ⟨?_, ?_, ?_, ?_, ?_, ?_⟩
  · rw [h.diagonal]; exact hs.diagonal
  · rw [h.left]; exact hs.left
  · rw [h.leftInverse]; exact hs.leftInverse
  · rw [h.right]; exact hs.right
  · rw [h.rightInverse]; exact hs.rightInverse
  · rw [h.budget]; exact hs.budget

theorem RowEffect.shaped {op : LineOperation} {rows cols : ℕ} {s s' : SmithConstructionState}
    (h : RowEffect op s s') (hs : Shaped rows cols construction s) :
    Shaped rows cols construction s' := by
  refine ⟨?_, ?_, ?_, ?_, ?_, ?_⟩
  · rw [h.diagonal.1.1, h.diagonal.1.2]; exact hs.diagonal
  · rw [h.left.1.1, h.left.1.2]; exact hs.left
  · rw [h.leftInverse.1.1, h.leftInverse.1.2]; exact hs.leftInverse
  · rw [h.right]; exact hs.right
  · rw [h.rightInverse]; exact hs.rightInverse
  · rw [h.budget]; exact hs.budget

theorem ColumnEffect.shaped {op : LineOperation} {rows cols : ℕ} {s s' : SmithConstructionState}
    (h : ColumnEffect op s s') (hs : Shaped rows cols construction s) :
    Shaped rows cols construction s' := by
  refine ⟨?_, ?_, ?_, ?_, ?_, ?_⟩
  · rw [h.diagonal.1.1, h.diagonal.1.2]; exact hs.diagonal
  · rw [h.left]; exact hs.left
  · rw [h.leftInverse]; exact hs.leftInverse
  · rw [h.right.1.1, h.right.1.2]; exact hs.right
  · rw [h.rightInverse.1.1, h.rightInverse.1.2]; exact hs.rightInverse
  · rw [h.budget]; exact hs.budget

theorem reserveScanSteps_within {steps : ℕ} (hbudget : self.budget = construction)
    (hreached : trace.reached self) (hsteps : steps ≤ self.updateSteps) :
    Within (ConstructionLimit machine construction verification source trace) (SameMatrices self)
      (self.reserveScanSteps machine steps) := by
  unfold reserveScanSteps
  apply Within.bind (checkedCount_within fun h =>
    Or.inr (Or.inr ⟨self, hreached, Or.inr ⟨steps, hsteps, Or.inr (Or.inl h)⟩⟩))
  rintro steps rfl
  apply Within.bind (checkedCount_within fun h =>
    Or.inr (Or.inr ⟨self, hreached, Or.inr ⟨steps, hsteps, Or.inr (Or.inr h)⟩⟩))
  rintro _ rfl
  apply Within.bind (refuseIf_within fun h =>
    ⟨by rw [hbudget], h, Or.inr ⟨self, hreached, steps, hsteps, rfl⟩⟩)
  intro _ _
  exact Within.ok ⟨rfl, rfl, rfl, rfl, rfl, rfl⟩

theorem inspect_within {row col : ℕ} (hbudget : self.budget = construction)
    (hreached : trace.reached self) (hrow : row < self.diagonal.rows)
    (hcol : col < self.diagonal.cols) :
    Within (ConstructionLimit machine construction verification source trace)
      (fun result => result.1 = self.diagonal.value row col ∧ SameMatrices self result.2)
      (self.inspect machine row col) := by
  have hone : 1 ≤ self.updateSteps := by
    unfold updateSteps
    omega
  unfold inspect
  apply Within.bind (reserveScanSteps_within hbudget hreached hone)
  intro s' hsame
  apply Within.ok
  refine ⟨?_, hsame⟩
  rw [hsame.diagonal, ExactIntegerMatrix.value_of_lt hrow hcol]

theorem beginOperation_within {steps : ℕ} (hbudget : self.budget = construction)
    (hreached : trace.reached self) (hsteps : steps ≤ self.updateSteps) :
    Within (ConstructionLimit machine construction verification source trace) (SameMatrices self)
      (self.beginOperation machine steps) := by
  unfold beginOperation
  apply Within.bind (checkedCount_within fun h =>
    Or.inr (Or.inr ⟨self, hreached, Or.inl h⟩))
  rintro _ rfl
  apply Within.bind (refuseIf_within fun h => ⟨by rw [hbudget], h, self, hreached, rfl⟩)
  intro _ _
  apply Within.bind (checkedCount_within fun h =>
    Or.inr (Or.inr ⟨self, hreached, Or.inr ⟨steps, hsteps, Or.inr (Or.inl h)⟩⟩))
  rintro steps rfl
  apply Within.bind (checkedCount_within fun h =>
    Or.inr (Or.inr ⟨self, hreached, Or.inr ⟨steps, hsteps, Or.inr (Or.inr h)⟩⟩))
  rintro _ rfl
  apply Within.bind (refuseIf_within fun h =>
    ⟨by rw [hbudget], h, Or.inr ⟨self, hreached, steps, hsteps, rfl⟩⟩)
  intro _ _
  exact Within.ok ⟨rfl, rfl, rfl, rfl, rfl, rfl⟩

/-- The steps of an operation are counted within the bound of the state. -/
theorem checkedSteps_within {phase : String} {first : ℕ} {rest : List ℕ}
    (hreached : trace.reached self) (hplan : first + rest.sum ≤ self.updateSteps) :
    Within (ConstructionLimit machine construction verification source trace)
      (· = first + rest.sum) (machine.checkedTotal phase first rest) :=
  checkedTotal_within fun n hn h =>
    Or.inr (Or.inr ⟨self, hreached, Or.inr ⟨n, hn.trans hplan, Or.inl h⟩⟩)

/-- A row of three matrices, counted twice, is within the bound. -/
theorem Shaped.rowSteps_le {rows cols : ℕ} (hs : Shaped rows cols construction self) :
    (self.diagonal.cols + [self.left.cols, self.leftInverse.rows].sum) * 2 ≤ self.updateSteps := by
  rw [updateSteps, hs.diagonal.1, hs.diagonal.2, hs.left.2, hs.leftInverse.1, List.sum_cons,
    List.sum_cons, List.sum_nil]
  omega

theorem Shaped.columnSteps_le {rows cols : ℕ} (hs : Shaped rows cols construction self) :
    (self.diagonal.rows + [self.right.rows, self.rightInverse.cols].sum) * 2 ≤
      self.updateSteps := by
  rw [updateSteps, hs.diagonal.1, hs.diagonal.2, hs.right.1, hs.rightInverse.2, List.sum_cons,
    List.sum_cons, List.sum_nil]
  omega

theorem RowEffect.after {op : LineOperation} {s s' s'' : SmithConstructionState}
    (hsame : SameMatrices s s') (h : RowEffect op s' s'') : RowEffect op s s'' := by
  obtain ⟨h1, h2, h3, h4, h5, h6⟩ := hsame
  refine ⟨?_, ?_, ?_, ?_, ?_, ?_⟩
  · rw [← h1]; exact h.diagonal
  · rw [← h2]; exact h.left
  · rw [← h3]; exact h.leftInverse
  · rw [← h4]; exact h.right
  · rw [← h5]; exact h.rightInverse
  · rw [← h6]; exact h.budget

theorem ColumnEffect.after {op : LineOperation} {s s' s'' : SmithConstructionState}
    (hsame : SameMatrices s s') (h : ColumnEffect op s' s'') : ColumnEffect op s s'' := by
  obtain ⟨h1, h2, h3, h4, h5, h6⟩ := hsame
  refine ⟨?_, ?_, ?_, ?_, ?_, ?_⟩
  · rw [← h1]; exact h.diagonal
  · rw [← h2]; exact h.left
  · rw [← h3]; exact h.leftInverse
  · rw [← h4]; exact h.right
  · rw [← h5]; exact h.rightInverse
  · rw [← h6]; exact h.budget

/-- A change that starts from the same matrices computes the same numbers. -/
theorem RowChange.before {s' : SmithConstructionState} {combine opposite : ℤ → ℤ → ℤ}
    {target other row col : ℕ} {multiplier value : ℤ} {role : MatrixRole}
    (h : s'.RowChange combine opposite target other multiplier role row col value)
    (hsame : SameMatrices self s') :
    self.RowChange combine opposite target other multiplier role row col value := by
  obtain ⟨h1, h2, h3, -, -, -⟩ := hsame
  cases h with
  | diagonal hcol h =>
    rw [h1] at hcol h
    exact .diagonal hcol h
  | left hcol h =>
    rw [h2] at hcol h
    exact .left hcol h
  | leftInverse hrow h =>
    rw [h3] at hrow h
    exact .leftInverse hrow h

theorem ColumnChange.before {s' : SmithConstructionState} {target other row col : ℕ}
    {multiplier value : ℤ} {role : MatrixRole}
    (h : s'.ColumnChange target other multiplier role row col value)
    (hsame : SameMatrices self s') :
    self.ColumnChange target other multiplier role row col value := by
  obtain ⟨h1, -, -, h4, h5, -⟩ := hsame
  cases h with
  | diagonal hrow h =>
    rw [h1] at hrow h
    exact .diagonal hrow h
  | right hrow h =>
    rw [h4] at hrow h
    exact .right hrow h
  | rightInverse hcol h =>
    rw [h5] at hcol h
    exact .rightInverse hcol h

theorem SignChange.before {s' : SmithConstructionState} {pivot row col : ℕ} {value : ℤ}
    {role : MatrixRole} (h : s'.SignChange pivot role row col value)
    (hsame : SameMatrices self s') : self.SignChange pivot role row col value := by
  obtain ⟨h1, h2, h3, -, -, -⟩ := hsame
  cases h with
  | diagonal hcol =>
    rw [h1] at hcol ⊢
    exact .diagonal hcol
  | left hcol =>
    rw [h2] at hcol ⊢
    exact .left hcol
  | leftInverse hrow =>
    rw [h3] at hrow ⊢
    exact .leftInverse hrow

theorem accounted_of_computed {stage : SmithConstructionStage} {role : MatrixRole} {row col : ℕ}
    {value : ℤ} (h : trace.computed stage role row col value) :
    Accounted machine construction (ConstructionLimit machine construction verification source
      trace) stage role row col value :=
  ⟨fun hc => ⟨value, h, hc⟩, fun hm => ⟨rfl, hm, Or.inr (Or.inr ⟨stage, value, h, rfl⟩)⟩⟩

variable {rows cols : ℕ}

theorem swapRows_within {first second : ℕ} (hs : Shaped rows cols construction self)
    (hreached : trace.reached self) (hfirst : first < rows) (hsecond : second < rows) :
    Within (ConstructionLimit machine construction verification source trace)
      (RowEffect (.swap first second) self) (self.swapRows machine first second) := by
  have hsteps := hs.rowSteps_le
  unfold swapRows
  apply Within.bind (checkedSteps_within hreached (by omega))
  rintro _ rfl
  apply Within.bind (checkedExtent_within fun h =>
    Or.inr (Or.inr ⟨self, hreached, Or.inr ⟨_, hsteps, Or.inl h⟩⟩))
  rintro _ rfl
  apply Within.bind (beginOperation_within hs.budget hreached hsteps)
  intro s' hsame
  have hs' := hsame.shaped hs
  apply Within.ok
  apply RowEffect.after hsame
  exact
    { diagonal := swapMatrixRows_acts (by rw [hs'.diagonal.1]; exact hfirst)
        (by rw [hs'.diagonal.1]; exact hsecond)
      left := swapMatrixRows_acts (by rw [hs'.left.1]; exact hfirst)
        (by rw [hs'.left.1]; exact hsecond)
      leftInverse := swapMatrixColumns_acts (by rw [hs'.leftInverse.2]; exact hfirst)
        (by rw [hs'.leftInverse.2]; exact hsecond)
      right := rfl
      rightInverse := rfl
      budget := rfl }

theorem swapColumns_within {first second : ℕ} (hs : Shaped rows cols construction self)
    (hreached : trace.reached self) (hfirst : first < cols) (hsecond : second < cols) :
    Within (ConstructionLimit machine construction verification source trace)
      (ColumnEffect (.swap first second) self) (self.swapColumns machine first second) := by
  have hsteps := hs.columnSteps_le
  unfold swapColumns
  apply Within.bind (checkedSteps_within hreached (by omega))
  rintro _ rfl
  apply Within.bind (checkedExtent_within fun h =>
    Or.inr (Or.inr ⟨self, hreached, Or.inr ⟨_, hsteps, Or.inl h⟩⟩))
  rintro _ rfl
  apply Within.bind (beginOperation_within hs.budget hreached hsteps)
  intro s' hsame
  have hs' := hsame.shaped hs
  apply Within.ok
  apply ColumnEffect.after hsame
  exact
    { diagonal := swapMatrixColumns_acts (by rw [hs'.diagonal.2]; exact hfirst)
        (by rw [hs'.diagonal.2]; exact hsecond)
      left := rfl
      leftInverse := rfl
      right := swapMatrixColumns_acts (by rw [hs'.right.2]; exact hfirst)
        (by rw [hs'.right.2]; exact hsecond)
      rightInverse := swapMatrixRows_acts (by rw [hs'.rightInverse.1]; exact hfirst)
        (by rw [hs'.rightInverse.1]; exact hsecond)
      budget := rfl }

theorem subtractRowMultiple_within {target other : ℕ} {quotient : ℤ}
    (hs : Shaped rows cols construction self) (hreached : trace.reached self)
    (hcomputed : ∀ role row col value, self.RowChange (· - ·) (· + ·) target other quotient role row
      col value → trace.computed .rowReduction role row col value)
    (htarget : target < rows) (hother : other < rows) :
    Within (ConstructionLimit machine construction verification source trace)
      (RowEffect (.subtract target other quotient) self)
      (self.subtractRowMultiple machine target other quotient) := by
  have hsteps := hs.rowSteps_le
  unfold subtractRowMultiple
  apply Within.bind (checkedSteps_within hreached (by omega))
  rintro _ rfl
  apply Within.bind (beginOperation_within hs.budget hreached (by omega))
  intro s' hsame
  have hs' := hsame.shaped hs
  have hcause (role : MatrixRole) (row col : ℕ) (value : ℤ)
      (h : s'.RowChange (· - ·) (· + ·) target other quotient role row col value) :
      Accounted machine construction (ConstructionLimit machine construction verification source
        trace) .rowReduction role row col value :=
    accounted_of_computed (hcomputed role row col value (h.before hsame))
  rw [hs'.budget]
  apply Within.bind (checkedSubtractMatrixRow_within (by rw [hs'.diagonal.1]; exact htarget)
    (by rw [hs'.diagonal.1]; exact hother)
    fun col hcol value h => hcause _ _ _ _ (.diagonal hcol h))
  intro diagonal hdiagonal
  apply Within.bind (checkedSubtractMatrixRow_within (by rw [hs'.left.1]; exact htarget)
    (by rw [hs'.left.1]; exact hother) fun col hcol value h => hcause _ _ _ _ (.left hcol h))
  intro left hleft
  apply Within.bind (checkedAddMatrixColumn_within (by rw [hs'.leftInverse.2]; exact hother)
    (by rw [hs'.leftInverse.2]; exact htarget)
    fun row hrow value h => hcause _ _ _ _ (.leftInverse hrow h))
  intro leftInverse hinverse
  apply Within.ok
  apply RowEffect.after hsame
  refine ⟨hdiagonal, hleft, ⟨hinverse.1, ?_⟩, rfl, rfl, hs'.budget.symm⟩
  rw [LineOperation.coact_subtract]
  exact hinverse.2

theorem subtractColumnMultiple_within {target other : ℕ} {quotient : ℤ}
    {stage : SmithConstructionStage} {phase : String} (hs : Shaped rows cols construction self)
    (hreached : trace.reached self)
    (hcomputed : ∀ role row col value, self.ColumnChange target other quotient role row col value →
      trace.computed stage role row col value)
    (htarget : target < cols) (hother : other < cols) :
    Within (ConstructionLimit machine construction verification source trace)
      (ColumnEffect (.subtract target other quotient) self)
      (self.subtractColumnMultiple machine target other quotient stage phase) := by
  have hsteps := hs.columnSteps_le
  unfold subtractColumnMultiple
  apply Within.bind (checkedSteps_within hreached (by omega))
  rintro _ rfl
  apply Within.bind (beginOperation_within hs.budget hreached (by omega))
  intro s' hsame
  have hs' := hsame.shaped hs
  have hcause (role : MatrixRole) (row col : ℕ) (value : ℤ)
      (h : s'.ColumnChange target other quotient role row col value) :
      Accounted machine construction (ConstructionLimit machine construction verification source
        trace) stage role row col value :=
    accounted_of_computed (hcomputed role row col value (h.before hsame))
  rw [hs'.budget]
  apply Within.bind (checkedSubtractMatrixColumn_within (by rw [hs'.diagonal.2]; exact htarget)
    (by rw [hs'.diagonal.2]; exact hother)
    fun row hrow value h => hcause _ _ _ _ (.diagonal hrow h))
  intro diagonal hdiagonal
  apply Within.bind (checkedSubtractMatrixColumn_within (by rw [hs'.right.2]; exact htarget)
    (by rw [hs'.right.2]; exact hother) fun row hrow value h => hcause _ _ _ _ (.right hrow h))
  intro right hright
  apply Within.bind (checkedAddMatrixRow_within (by rw [hs'.rightInverse.1]; exact hother)
    (by rw [hs'.rightInverse.1]; exact htarget)
    fun col hcol value h => hcause _ _ _ _ (.rightInverse hcol h))
  intro rightInverse hinverse
  apply Within.ok
  apply ColumnEffect.after hsame
  refine ⟨hdiagonal, rfl, rfl, hright, ⟨hinverse.1, ?_⟩, hs'.budget.symm⟩
  rw [LineOperation.coact_subtract]
  exact hinverse.2

theorem addRowForDivisibilityRepair_within {target other : ℕ}
    (hs : Shaped rows cols construction self) (hreached : trace.reached self)
    (hcomputed : ∀ role row col value, self.RowChange (· + ·) (· - ·) target other 1 role row col
      value → trace.computed .divisibilityRepair role row col value)
    (htarget : target < rows) (hother : other < rows) :
    Within (ConstructionLimit machine construction verification source trace)
      (RowEffect (.subtract target other (-1)) self)
      (self.addRowForDivisibilityRepair machine target other) := by
  have hsteps := hs.rowSteps_le
  unfold addRowForDivisibilityRepair
  apply Within.bind (checkedSteps_within hreached (by omega))
  rintro _ rfl
  apply Within.bind (beginOperation_within hs.budget hreached (by omega))
  intro s' hsame
  have hs' := hsame.shaped hs
  have hcause (role : MatrixRole) (row col : ℕ) (value : ℤ)
      (h : s'.RowChange (· + ·) (· - ·) target other 1 role row col value) :
      Accounted machine construction (ConstructionLimit machine construction verification source
        trace) .divisibilityRepair role row col value :=
    accounted_of_computed (hcomputed role row col value (h.before hsame))
  rw [hs'.budget]
  apply Within.bind (checkedAddMatrixRow_within (by rw [hs'.diagonal.1]; exact htarget)
    (by rw [hs'.diagonal.1]; exact hother)
    fun col hcol value h => hcause _ _ _ _ (.diagonal hcol h))
  intro diagonal hdiagonal
  apply Within.bind (checkedAddMatrixRow_within (by rw [hs'.left.1]; exact htarget)
    (by rw [hs'.left.1]; exact hother) fun col hcol value h => hcause _ _ _ _ (.left hcol h))
  intro left hleft
  apply Within.bind (checkedSubtractMatrixColumn_within
    (by rw [hs'.leftInverse.2]; exact hother) (by rw [hs'.leftInverse.2]; exact htarget)
    fun row hrow value h => hcause _ _ _ _ (.leftInverse hrow h))
  intro leftInverse hinverse
  apply Within.ok
  apply RowEffect.after hsame
  refine ⟨hdiagonal, hleft, ⟨hinverse.1, ?_⟩, rfl, rfl, hs'.budget.symm⟩
  rw [LineOperation.coact_subtract, neg_neg]
  exact hinverse.2

theorem normalizePivotSign_within {pivot : ℕ} (hs : Shaped rows cols construction self)
    (hreached : trace.reached self)
    (hcomputed : ∀ role row col value, self.SignChange pivot role row col value →
      trace.computed .signNormalization role row col value) (hpivot : pivot < rows) :
    Within (ConstructionLimit machine construction verification source trace)
      (RowEffect (.negate pivot) self) (self.normalizePivotSign machine pivot) := by
  have hsteps := hs.rowSteps_le
  unfold normalizePivotSign
  apply Within.bind (checkedSteps_within hreached (by omega))
  rintro _ rfl
  apply Within.bind (beginOperation_within hs.budget hreached (by omega))
  intro s' hsame
  have hs' := hsame.shaped hs
  have hcause (role : MatrixRole) (row col : ℕ) (value : ℤ)
      (h : s'.SignChange pivot role row col value) :
      Accounted machine construction (ConstructionLimit machine construction verification source
        trace) .signNormalization role row col value :=
    accounted_of_computed (hcomputed role row col value (h.before hsame))
  rw [hs'.budget]
  apply Within.bind (checkedNegateMatrixRow_within (by rw [hs'.diagonal.1]; exact hpivot)
    fun col hcol => hcause _ _ _ _ (.diagonal hcol))
  intro diagonal hdiagonal
  apply Within.bind (checkedNegateMatrixRow_within (by rw [hs'.left.1]; exact hpivot)
    fun col hcol => hcause _ _ _ _ (.left hcol))
  intro left hleft
  apply Within.bind (checkedNegateMatrixColumn_within (by rw [hs'.leftInverse.2]; exact hpivot)
    fun row hrow => hcause _ _ _ _ (.leftInverse hrow))
  intro leftInverse hinverse
  apply Within.ok
  apply RowEffect.after hsame
  exact ⟨hdiagonal, hleft, hinverse, rfl, rfl, hs'.budget.symm⟩

theorem SameMatrices.transforms {source : ExactIntegerMatrix} {s s' : SmithConstructionState}
    (hsame : SameMatrices s s') (h : Transforms source s.witness) : Transforms source s'.witness := by
  have hwitness : s'.witness = s.witness := by
    unfold witness
    rw [hsame.diagonal, hsame.left, hsame.leftInverse, hsame.right, hsame.rightInverse]
  rwa [hwitness]

/-- A row operation keeps the equations of the transforms. -/
theorem RowEffect.transforms {source : ExactIntegerMatrix} {op : LineOperation}
    {s s' : SmithConstructionState} (heffect : RowEffect op s s') (hop : op.Valid source.rows)
    (h : Transforms source s.witness) : Transforms source s'.witness := by
  obtain ⟨E, F, hEF, hFE, hact, hcoact⟩ := op.exists_matrices hop
  have hdiagonal : s'.diagonal.toMatrix source.rows source.cols =
      E * s.diagonal.toMatrix source.rows source.cols := by
    rw [← ExactIntegerMatrix.block_value, heffect.diagonal.2, hact]
    rfl
  have hleft : s'.left.toMatrix source.rows source.rows =
      E * s.left.toMatrix source.rows source.rows := by
    rw [← ExactIntegerMatrix.block_value, heffect.left.2, hact]
    rfl
  have hinverse : s'.leftInverse.toMatrix source.rows source.rows =
      s.leftInverse.toMatrix source.rows source.rows * F := by
    rw [← ExactIntegerMatrix.block_value, heffect.leftInverse.2, hcoact]
    rfl
  obtain ⟨h1, h2, h3, h4, h5⟩ := h
  dsimp only [witness] at h1 h2 h3 h4 h5
  refine ⟨?_, ?_, ?_, ?_, ?_⟩ <;> dsimp only [witness]
  · rw [hleft, hinverse, Matrix.mul_assoc, ← Matrix.mul_assoc _ _ F, h1, Matrix.one_mul, hEF]
  · rw [hleft, hinverse, Matrix.mul_assoc, ← Matrix.mul_assoc F, hFE, Matrix.one_mul, h2]
  · rwa [heffect.right, heffect.rightInverse]
  · rwa [heffect.right, heffect.rightInverse]
  · rw [hleft, hdiagonal, heffect.right, ← h5, Matrix.mul_assoc E, Matrix.mul_assoc E]

/-- A column operation keeps the equations of the transforms. -/
theorem ColumnEffect.transforms {source : ExactIntegerMatrix} {op : LineOperation}
    {s s' : SmithConstructionState} (heffect : ColumnEffect op s s') (hop : op.Valid source.cols)
    (h : Transforms source s.witness) : Transforms source s'.witness := by
  obtain ⟨E, F, hEF, hFE, hact, hcoact⟩ := op.exists_matrices hop
  have hdiagonal : s'.diagonal.toMatrix source.rows source.cols =
      s.diagonal.toMatrix source.rows source.cols * E.transpose := by
    rw [← ExactIntegerMatrix.block_value, heffect.diagonal.2, block_flip, hact,
      Matrix.transpose_mul]
    rfl
  have hright : s'.right.toMatrix source.cols source.cols =
      s.right.toMatrix source.cols source.cols * E.transpose := by
    rw [← ExactIntegerMatrix.block_value, heffect.right.2, block_flip, hact,
      Matrix.transpose_mul]
    rfl
  have hinverse : s'.rightInverse.toMatrix source.cols source.cols =
      F.transpose * s.rightInverse.toMatrix source.cols source.cols := by
    rw [← ExactIntegerMatrix.block_value, heffect.rightInverse.2, block_flip, hcoact,
      Matrix.transpose_mul]
    rfl
  have hEFt : E.transpose * F.transpose = 1 := by
    rw [← Matrix.transpose_mul, hFE, Matrix.transpose_one]
  have hFEt : F.transpose * E.transpose = 1 := by
    rw [← Matrix.transpose_mul, hEF, Matrix.transpose_one]
  obtain ⟨h1, h2, h3, h4, h5⟩ := h
  dsimp only [witness] at h1 h2 h3 h4 h5
  refine ⟨?_, ?_, ?_, ?_, ?_⟩ <;> dsimp only [witness]
  · rwa [heffect.left, heffect.leftInverse]
  · rwa [heffect.left, heffect.leftInverse]
  · rw [hright, hinverse, Matrix.mul_assoc, ← Matrix.mul_assoc E.transpose, hEFt, Matrix.one_mul,
      h3]
  · rw [hright, hinverse, Matrix.mul_assoc, ← Matrix.mul_assoc _ _ E.transpose, h4,
      Matrix.one_mul, hFEt]
  · rw [hright, hdiagonal, heffect.left, ← h5, Matrix.mul_assoc _ _ E.transpose]

end SmithConstructionState

end FrankenSim.Smith
