import FrankenSim.Smith.Verification

/-!
# What the verifier of Smith witnesses settles

Each stage of the verifier settles one of the equations of a witness: it succeeds only
when the equation holds, and it refuses with a structural error only when it fails.
The other refusals name a budget, an allocation or a number the machine cannot hold.
-/
namespace FrankenSim.Smith

open Library Matrix

/-- The matrices of a witness have the extents of its source. -/
structure RightShapes (source : ExactIntegerMatrix) (w : SmithNormalFormWitness) : Prop where
  diagonal : w.diagonal.rows = source.rows ∧ w.diagonal.cols = source.cols
  left : w.left.rows = source.rows ∧ w.left.cols = source.rows
  leftInverse : w.leftInverse.rows = source.rows ∧ w.leftInverse.cols = source.rows
  right : w.right.rows = source.cols ∧ w.right.cols = source.cols
  rightInverse : w.rightInverse.rows = source.cols ∧ w.rightInverse.cols = source.cols

/-- A rectangular diagonal with non-negative entries, zeros last, each dividing the next. -/
structure Canonical (diagonal : ExactIntegerMatrix) : Prop where
  offDiagonal : ∀ row < diagonal.rows, ∀ col < diagonal.cols, row ≠ col →
    diagonal.value row col = 0
  nonneg : ∀ i < min diagonal.rows diagonal.cols, 0 ≤ diagonal.value i i
  zerosLast : ∀ i j, i ≤ j → j < min diagonal.rows diagonal.cols → diagonal.value i i = 0 →
    diagonal.value j j = 0
  dvd : ∀ i, i + 1 < min diagonal.rows diagonal.cols →
    diagonal.value i i ∣ diagonal.value (i + 1) (i + 1)

/-- Both transforms are inverted by their partners and take the source to the diagonal. -/
structure Transforms (source : ExactIntegerMatrix) (w : SmithNormalFormWitness) : Prop where
  left_mul_inverse : w.left.toMatrix source.rows source.rows *
    w.leftInverse.toMatrix source.rows source.rows = 1
  inverse_mul_left : w.leftInverse.toMatrix source.rows source.rows *
    w.left.toMatrix source.rows source.rows = 1
  right_mul_inverse : w.right.toMatrix source.cols source.cols *
    w.rightInverse.toMatrix source.cols source.cols = 1
  inverse_mul_right : w.rightInverse.toMatrix source.cols source.cols *
    w.right.toMatrix source.cols source.cols = 1
  transform : w.left.toMatrix source.rows source.rows * source.toMatrix source.rows source.cols *
    w.right.toMatrix source.cols source.cols = w.diagonal.toMatrix source.rows source.cols

/-- The equations of a Smith witness. -/
structure Equations (source : ExactIntegerMatrix) (w : SmithNormalFormWitness) : Prop where
  transforms : Transforms source w
  canonical : Canonical w.diagonal

/-- The inner products of the whole verification. -/
def plannedWork (rows cols : ℕ) : ℕ :=
  2 * (rows * rows * rows) + 2 * (cols * cols * cols) + rows * rows * cols + rows * cols * cols

def retainedEntries (rows cols : ℕ) : ℕ :=
  2 * (rows * cols) + 2 * (rows * rows) + 2 * (cols * cols)

/-- The inner product of a row and a column inside the rectangles. -/
def dot (left right : ExactIntegerMatrix) (row col : ℕ) : ℤ :=
  ∑ term ∈ Finset.range left.cols, left.value row term * right.value term col

/-- The entries that a stage of the verification multiplies. -/
def operands (source : ExactIntegerMatrix) (w : SmithNormalFormWitness) :
    SmithWitnessStage → (ℕ → ℕ → ℤ) × (ℕ → ℕ → ℤ)
  | .leftTimesInverse => (w.left.value, w.leftInverse.value)
  | .leftInverseTimesTransform => (w.leftInverse.value, w.left.value)
  | .rightTimesInverse => (w.right.value, w.rightInverse.value)
  | .rightInverseTimesTransform => (w.rightInverse.value, w.right.value)
  | .leftTimesSource => (w.left.value, source.value)
  | .diagonalTransform => (dot w.left source, w.right.value)

/-- A product or a partial sum of an inner product is no coefficient of the machine. -/
def OverflowsAt (machine : Machine) (factors : (ℕ → ℕ → ℤ) × (ℕ → ℕ → ℤ)) (row col term : ℕ) :
    Prop :=
  machine.coefficient (factors.1 row term * factors.2 term col) = false ∨
    machine.coefficient (∑ t ∈ Finset.range (term + 1), factors.1 row t * factors.2 t col) = false

/-- A refusal that names an exhausted budget or a number the machine does not hold. -/
def VerificationLimit (machine : Machine) (budget : ExactAlgebraBudget)
    (source : ExactIntegerMatrix) (w : SmithNormalFormWitness) : IntegralTopologyError → Prop
  | .retainedMatrixExceedsBudget _ rows cols entries =>
      (rows : ℕ∞) > budget.maxRows ∨ (cols : ℕ∞) > budget.maxCols ∨
        (entries : ℕ∞) > budget.maxMatrixEntries
  | .retainedEntryBudgetExceeded requested max =>
      max = budget.maxRetainedEntries ∧ (requested : ℕ∞) > max
  | .workspaceEntryBudgetExceeded requested max =>
      max = budget.maxWorkspaceEntries ∧ (requested : ℕ∞) > max
  | .scalarWorkBudgetExceeded requested max =>
      max = budget.maxScalarOperations ∧ (requested : ℕ∞) > max
  | .allocationRefused phase entries => machine.allocates phase entries = false
  | .arithmeticOverflow stage row col term =>
      OverflowsAt machine (operands source w stage) row col term
  | .workPlanOverflow _ =>
      (∃ n ≤ plannedWork source.rows source.cols, machine.count n = false) ∨
        ∃ n ≤ retainedEntries source.rows source.cols, machine.extent n = false
  | _ => False

def Refutes (error : IntegralTopologyError) : Prop := error.failureClass = .refuted

section Stages

variable {machine : Machine} {budget : ExactAlgebraBudget} {source : ExactIntegerMatrix}
  {witness : SmithNormalFormWitness}

theorem refuseIf_settles {cause : IntegralTopologyError → Prop} {condition : Prop}
    [Decidable condition] {error : IntegralTopologyError} (h : Refutes error) :
    Settles cause Refutes (¬ condition) (fun _ => True) (refuseIf condition error) := by
  unfold refuseIf
  split_ifs with hc
  · exact Settles.refuted h fun hn => hn hc
  · exact Settles.ok hc trivial

theorem refuseIf_within {cause : IntegralTopologyError → Prop} {condition : Prop}
    [Decidable condition] {error : IntegralTopologyError} (h : condition → cause error) :
    Within cause (fun _ => ¬ condition) (refuseIf condition error) := by
  unfold refuseIf
  split_ifs with hc
  · exact Within.error (h hc)
  · exact Within.ok hc

theorem checkedCoefficient_within {cause : IntegralTopologyError → Prop} {value : ℤ}
    {error : IntegralTopologyError} (h : machine.coefficient value = false → cause error) :
    Within cause (· = value) (machine.checkedCoefficient value error) := by
  unfold Machine.checkedCoefficient
  split_ifs with hc
  · exact Within.ok rfl
  · exact Within.error (h (Bool.eq_false_of_not_eq_true hc))

theorem checkedCount_within {cause : IntegralTopologyError → Prop} {value : ℕ} {phase : String}
    (h : machine.count value = false → cause (.workPlanOverflow phase)) :
    Within cause (· = value) (machine.checkedCount value phase) := by
  unfold Machine.checkedCount
  split_ifs with hc
  · exact Within.ok rfl
  · exact Within.error (h (Bool.eq_false_of_not_eq_true hc))

theorem checkedExtent_within {cause : IntegralTopologyError → Prop} {value : ℕ} {phase : String}
    (h : machine.extent value = false → cause (.workPlanOverflow phase)) :
    Within cause (· = value) (machine.checkedExtent value phase) := by
  unfold Machine.checkedExtent
  split_ifs with hc
  · exact Within.ok rfl
  · exact Within.error (h (Bool.eq_false_of_not_eq_true hc))

theorem reserveExact_within {cause : IntegralTopologyError → Prop} {phase : String} {entries : ℕ}
    (h : machine.allocates phase entries = false → cause (.allocationRefused phase entries)) :
    Within cause (fun _ => True) (machine.reserveExact phase entries) := by
  unfold Machine.reserveExact
  split_ifs with hc
  · exact Within.ok trivial
  · exact Within.error (h (Bool.eq_false_of_not_eq_true hc))

theorem toMatrix_mul_apply (left right : ExactIntegerMatrix) {m k n : ℕ} (hk : left.cols = k)
    (i : Fin m) (j : Fin n) :
    (left.toMatrix m k * right.toMatrix k n) i j = dot left right i j := by
  rw [Matrix.mul_apply, dot, hk, Finset.sum_range]
  rfl

theorem checkedDot_within {left right : ExactIntegerMatrix} {row col completed : ℕ}
    {stage : SmithWitnessStage} (hrow : row < left.rows) (hmid : left.cols = right.rows)
    (hcol : col < right.cols)
    (hleft : ∀ t < left.cols, (operands source witness stage).1 row t = left.value row t)
    (hright : ∀ t < left.cols, (operands source witness stage).2 t col = right.value t col)
    (hplan : completed + left.cols ≤ plannedWork source.rows source.cols) :
    Within (VerificationLimit machine budget source witness)
      (fun state => state.1 = dot left right row col ∧ state.2 = completed + left.cols)
      (machine.checkedDot left row right col stage completed) := by
  unfold Machine.checkedDot
  apply Within.range_foldlM (I := fun term (state : ℤ × ℕ) =>
    state.1 = ∑ t ∈ Finset.range term, left.value row t * right.value t col ∧
      state.2 = completed + term) (by simp)
  rintro term hterm ⟨sum, count⟩ ⟨hsum, hcount⟩
  have hentries : left.entry row term * right.entry term col =
      left.value row term * right.value term col := by
    rw [ExactIntegerMatrix.value_of_lt hrow hterm, ExactIntegerMatrix.value_of_lt (by omega) hcol]
  have hrunning : ∑ t ∈ Finset.range (term + 1), (operands source witness stage).1 row t *
      (operands source witness stage).2 t col =
      ∑ t ∈ Finset.range (term + 1), left.value row t * right.value t col := by
    apply Finset.sum_congr rfl
    intro t ht
    have hlt := Finset.mem_range.1 ht
    rw [hleft t (by omega), hright t (by omega)]
  dsimp only at hsum hcount ⊢
  rw [hentries, hsum]
  have hfactors : Within (VerificationLimit machine budget source witness)
      (· = left.value row term * right.value term col)
      (machine.checkedCoefficient (left.value row term * right.value term col)
        (.arithmeticOverflow stage row col term)) := by
    apply checkedCoefficient_within
    intro h
    rw [← hleft term hterm, ← hright term hterm] at h
    exact Or.inl h
  apply Within.bind hfactors
  rintro _ rfl
  rw [← Finset.sum_range_succ]
  apply Within.bind (checkedCoefficient_within fun h => Or.inr (hrunning ▸ h))
  rintro _ rfl
  apply Within.bind (checkedCount_within fun h => Or.inl ⟨count + 1, by omega, h⟩)
  rintro _ rfl
  apply Within.ok
  rw [hcount]
  exact ⟨rfl, rfl⟩

/-- The places of a grid before the last leave room for one more inner product. -/
theorem grid_room {rows cols row col k base plan : ℕ} (hrow : row < rows) (hcol : col < cols)
    (hplan : base + rows * cols * k ≤ plan) : base + (row * cols + col) * k + k ≤ plan := by
  have hlast := Nat.mul_le_mul_right k (Nat.succ_le_of_lt (ExactIntegerMatrix.position_lt hrow hcol))
  rw [Nat.succ_mul] at hlast
  omega

theorem verifyIdentityProduct_settles {left right : ExactIntegerMatrix} {n completed : ℕ}
    {stage : SmithWitnessStage} (hleft : left.rows = n ∧ left.cols = n)
    (hright : right.rows = n ∧ right.cols = n)
    (hstage : operands source witness stage = (left.value, right.value))
    (hplan : completed + n * n * n ≤ plannedWork source.rows source.cols) :
    Settles (VerificationLimit machine budget source witness) Refutes
      (left.toMatrix n n * right.toMatrix n n = 1) (· = completed + n * n * n)
      (machine.verifyIdentityProduct left right stage completed) := by
  have hproduct : (∀ row < n, ∀ col < n, dot left right row col = if row = col then 1 else 0) ↔
      left.toMatrix n n * right.toMatrix n n = 1 := by
    constructor
    · intro h
      ext i j
      rw [toMatrix_mul_apply _ _ hleft.2, h i i.isLt j j.isLt, Matrix.one_apply]
      exact if_congr Fin.val_inj rfl rfl
    · intro h row hrow col hcol
      have happly := congrFun (congrFun h ⟨row, hrow⟩) ⟨col, hcol⟩
      rw [toMatrix_mul_apply _ _ hleft.2, Matrix.one_apply] at happly
      rw [happly]
      exact if_congr Fin.mk.inj_iff rfl rfl
  apply Settles.congr _ hproduct
  unfold Machine.verifyIdentityProduct
  rw [hleft.1, hright.2]
  apply forGrid_settles (I := fun place count => count = completed + place * n) (by simp)
  rintro row hrow col hcol _ rfl
  have hroom := grid_room hrow hcol hplan
  apply Settles.after (checkedDot_within (by omega) (by omega) (by omega)
    (fun _ _ => by rw [hstage]) (fun _ _ => by rw [hstage]) (by omega))
  rintro ⟨actual, count⟩ ⟨rfl, rfl⟩
  refine Settles.bindCheck (refuseIf_settles ?_) not_not ?_
  · rfl
  intro _ _ _
  rw [Nat.succ_mul, ← add_assoc]
  exact Within.ok (by rw [hleft.2])

/-- The entry of a chain at a place: non-negative and divided by every earlier entry. -/
def FitsChain (δ : ℕ → ℤ) (i : ℕ) : Prop := 0 ≤ δ i ∧ ∀ j < i, δ j ∣ δ i

/-- What the scan of the diagonal knows before a place. -/
structure Scanned (δ : ℕ → ℤ) (i : ℕ) (scan : FactorScan) : Prop where
  factors : scan.invariantFactors = ((List.range i).map δ).filter (· ≠ 0)
  zeroSeen : scan.zeroSeen = true ↔ ∃ j < i, δ j = 0

theorem Scanned.last {δ : ℕ → ℤ} {i : ℕ} {scan : FactorScan} (h : Scanned δ i scan)
    (hzero : scan.zeroSeen = false) : scan.invariantFactors = (List.range i).map δ := by
  rw [h.factors, List.filter_eq_self]
  intro value hvalue
  obtain ⟨j, hj, rfl⟩ := List.mem_map.1 hvalue
  rw [decide_eq_true_eq]
  intro hδ
  have hseen := h.zeroSeen.2 ⟨j, List.mem_range.1 hj, hδ⟩
  rw [hzero] at hseen
  cases hseen

theorem Scanned.push {δ : ℕ → ℤ} {i : ℕ} {scan : FactorScan} (h : Scanned δ i scan)
    (hne : δ i ≠ 0) :
    Scanned δ (i + 1) { scan with invariantFactors := scan.invariantFactors ++ [δ i] } where
  factors := by
    rw [List.range_succ, List.map_append, List.filter_append, ← h.factors]
    simp [hne]
  zeroSeen := by
    rw [h.zeroSeen]
    constructor
    · rintro ⟨j, hj, hδ⟩
      exact ⟨j, by omega, hδ⟩
    · rintro ⟨j, hj, hδ⟩
      rcases Nat.lt_succ_iff_lt_or_eq.1 hj with hj | rfl
      · exact ⟨j, hj, hδ⟩
      · exact absurd hδ hne

theorem Scanned.skip {δ : ℕ → ℤ} {i : ℕ} {scan : FactorScan} (h : Scanned δ i scan)
    (hzero : δ i = 0) : Scanned δ (i + 1) { scan with zeroSeen := true } where
  factors := by
    rw [List.range_succ, List.map_append, List.filter_append, ← h.factors]
    simp [hzero]
  zeroSeen := ⟨fun _ => ⟨i, by omega, hzero⟩, fun _ => rfl⟩

theorem scanFactor_settles {cause : IntegralTopologyError → Prop} {δ : ℕ → ℤ} {i : ℕ}
    {scan : FactorScan} (h : Scanned δ i scan) (hbefore : ∀ j < i, FitsChain δ j) :
    Settles cause Refutes (FitsChain δ i) (Scanned δ (i + 1)) (scanFactor i (δ i) scan) := by
  unfold scanFactor
  split_ifs with hneg hzero hseen
  · exact Settles.refuted rfl fun hfits => absurd hfits.1 (by omega)
  · apply Settles.ok _ (h.skip hzero)
    exact ⟨by omega, fun j _ => hzero ▸ dvd_zero _⟩
  · refine Settles.refuted ?_ fun hfits => ?_
    · rfl
    obtain ⟨j, hj, hδ⟩ := h.zeroSeen.1 hseen
    have hdvd := hfits.2 j hj
    rw [hδ, zero_dvd_iff] at hdvd
    exact hzero hdvd
  · have hlast := h.last (Bool.eq_false_of_not_eq_true hseen)
    rw [hlast, List.getLast?_map, List.getLast?_range]
    cases i with
    | zero =>
      rw [if_pos rfl, Option.map_none]
      rw [← hlast]
      exact Settles.ok ⟨by omega, fun j hj => absurd hj (Nat.not_lt_zero j)⟩ (h.push hzero)
    | succ i =>
      rw [if_neg (Nat.succ_ne_zero i), Option.map_some]
      dsimp only
      rw [Nat.add_sub_cancel]
      split_ifs with hbad
      · refine Settles.refuted ?_ fun hfits => ?_
        · rfl
        have hdvd := hfits.2 i (by omega)
        rcases hbad with hprevious | hremainder
        · rw [hprevious, zero_dvd_iff] at hdvd
          exact hzero hdvd
        · exact hremainder (Int.emod_eq_zero_of_dvd hdvd)
      · push Not at hbad
        have hdvd := Int.dvd_of_emod_eq_zero hbad.2
        rw [← hlast]
        apply Settles.ok _ (h.push hzero)
        refine ⟨by omega, fun j hj => ?_⟩
        rcases Nat.lt_succ_iff_lt_or_eq.1 hj with hj | rfl
        · exact ((hbefore i (by omega)).2 j hj).trans hdvd
        · exact hdvd

/-- The claimed order of a diagonal is that of a divisibility chain. -/
theorem canonical_iff {diagonal : ExactIntegerMatrix} :
    Canonical diagonal ↔
      (∀ row < diagonal.rows, ∀ col < diagonal.cols, row ≠ col → diagonal.value row col = 0) ∧
      ∀ i < min diagonal.rows diagonal.cols, FitsChain (fun i => diagonal.value i i) i := by
  constructor
  · intro h
    refine ⟨h.offDiagonal, fun i hi => ⟨h.nonneg i hi, fun j hj => ?_⟩⟩
    obtain ⟨k, rfl⟩ := Nat.exists_eq_add_of_lt hj
    induction k with
    | zero => exact h.dvd j hi
    | succ k ih => exact (ih (by omega) (by omega)).trans (h.dvd (j + k + 1) hi)
  · rintro ⟨hoff, hchain⟩
    refine ⟨hoff, fun i hi => (hchain i hi).1, fun i j hij hj hzero => ?_, fun i hi => ?_⟩
    · rcases Nat.lt_or_eq_of_le hij with hij | rfl
      · have hdvd : diagonal.value i i ∣ diagonal.value j j := (hchain j hj).2 i hij
        rwa [hzero, zero_dvd_iff] at hdvd
      · exact hzero
    · exact (hchain (i + 1) hi).2 i (by omega)

/-- The non-zero entries of the diagonal, in order. -/
def factorsOf (diagonal : ExactIntegerMatrix) : List ℤ :=
  ((List.range (min diagonal.rows diagonal.cols)).map fun i => diagonal.value i i).filter (· ≠ 0)

theorem verifyCanonicalDiagonal_settles {diagonal : ExactIntegerMatrix} :
    Settles (VerificationLimit machine budget source witness) Refutes (Canonical diagonal)
      (· = factorsOf diagonal) (machine.verifyCanonicalDiagonal diagonal) := by
  apply Settles.congr _ canonical_iff.symm
  unfold Machine.verifyCanonicalDiagonal
  apply Settles.bind (Q := fun _ => True)
  · apply forGrid_settles (I := fun _ _ => True) trivial
    intro row hrow col hcol _ _
    rw [ExactIntegerMatrix.value_of_lt hrow hcol]
    apply Settles.congr (refuseIf_settles _)
    · rw [not_and, not_not]
    · rfl
  intro _ _ _
  apply Settles.after (reserveExact_within fun h => h)
  intro _ _
  apply Settles.bindValue (Settles.range_foldlM (I := Scanned fun i => diagonal.value i i) _ _)
  · intro scan _ hscan
    exact hscan.factors
  · exact ⟨rfl, by simp⟩
  · intro i hi scan hbefore hscan
    have hentry : diagonal.value i i = diagonal.entry i i :=
      ExactIntegerMatrix.value_of_lt (by omega) (by omega)
    rw [← hentry]
    exact scanFactor_settles hscan hbefore

theorem requireShape_settles {matrix : ExactIntegerMatrix} {role : MatrixRole} {r c : ℕ} :
    Settles (VerificationLimit machine budget source witness) Refutes (matrix.rows = r ∧ matrix.cols = c)
      (fun _ => True) (requireShape matrix role r c) := by
  apply Settles.congr (refuseIf_settles _)
  · rw [not_or, not_not, not_not]
  · rfl

theorem ensureWithin_within {matrix : ExactIntegerMatrix} {role : MatrixRole} :
    Within (VerificationLimit machine budget source witness) (fun _ => True)
      (matrix.ensureWithin role budget) := by
  unfold ExactIntegerMatrix.ensureWithin
  apply (refuseIf_within _).imp fun _ _ => trivial
  exact fun h => h

/-- Every partial sum of a total is at most the total. -/
theorem checkedTotal_within {cause : IntegralTopologyError → Prop} {phase : String} {first : ℕ}
    {rest : List ℕ} (h : ∀ n ≤ first + rest.sum, machine.extent n = false →
      cause (.workPlanOverflow phase)) :
    Within cause (· = first + rest.sum) (machine.checkedTotal phase first rest) := by
  unfold Machine.checkedTotal
  induction rest generalizing first with
  | nil => exact Within.ok rfl
  | cons value rest ih =>
    rw [List.sum_cons, ← add_assoc] at h ⊢
    rw [List.foldlM_cons]
    apply Within.bind (checkedExtent_within (h (first + value) (by omega)))
    rintro _ rfl
    exact ih h

theorem preflightShapes_settles :
    Settles (VerificationLimit machine budget source witness) Refutes (RightShapes source witness)
      (fun _ => True) (machine.preflightShapes source witness budget) := by
  have hshapes : ((witness.diagonal.rows = source.rows ∧ witness.diagonal.cols = source.cols) ∧
      (witness.left.rows = source.rows ∧ witness.left.cols = source.rows) ∧
      (witness.leftInverse.rows = source.rows ∧ witness.leftInverse.cols = source.rows) ∧
      (witness.right.rows = source.cols ∧ witness.right.cols = source.cols) ∧
      (witness.rightInverse.rows = source.cols ∧ witness.rightInverse.cols = source.cols)) ↔
      RightShapes source witness :=
    ⟨fun h => ⟨h.1, h.2.1, h.2.2.1, h.2.2.2.1, h.2.2.2.2⟩,
      fun h => ⟨h.diagonal, h.left, h.leftInverse, h.right, h.rightInverse⟩⟩
  apply Settles.congr _ hshapes
  unfold Machine.preflightShapes
  iterate 6 (apply Settles.after ensureWithin_within; intro _ _)
  apply Settles.bind requireShape_settles
  intro _ hdiagonal _
  apply Settles.bind requireShape_settles
  intro _ hleft _
  apply Settles.bind requireShape_settles
  intro _ hleftInverse _
  apply Settles.bind requireShape_settles
  intro _ hright _
  apply Settles.bindCheck requireShape_settles Iff.rfl
  intro _ hrightInverse _
  have htotal : source.entries.length + [witness.diagonal.entries.length,
      witness.left.entries.length, witness.leftInverse.entries.length,
      witness.right.entries.length, witness.rightInverse.entries.length].sum ≤
      retainedEntries source.rows source.cols := by
    simp only [ExactIntegerMatrix.length_eq, hdiagonal, hleft, hleftInverse, hright,
      hrightInverse, List.sum_cons, List.sum_nil, retainedEntries]
    omega
  apply Within.bind (checkedTotal_within fun n hn h => Or.inr ⟨n, hn.trans htotal, h⟩)
  rintro _ rfl
  apply Within.bind (refuseIf_within fun h => ⟨rfl, h⟩)
  intro _ _
  apply Within.bind (checkedExtent_within fun h =>
    Or.inr ⟨source.rows * source.cols, by unfold retainedEntries; omega, h⟩)
  rintro _ rfl
  exact (refuseIf_within fun h => ⟨rfl, h⟩).imp fun _ _ => trivial

/-- Every partial product of the work plan is part of the work plan. -/
theorem plannedScalarOperations_within :
    Within (VerificationLimit machine budget source witness)
      (· = plannedWork source.rows source.cols)
      (machine.plannedScalarOperations source.rows source.cols) := by
  have hcount (n : ℕ) (phase : String) (hn : n ≤ plannedWork source.rows source.cols) :
      Within (VerificationLimit machine budget source witness) (· = n)
        (machine.checkedCount n phase) :=
    checkedCount_within fun h => Or.inl ⟨n, hn, h⟩
  generalize source.rows = r at hcount ⊢
  generalize source.cols = c at hcount ⊢
  have hr : r ≤ r * r := Nat.le_mul_self r
  have hc : c ≤ c * c := Nat.le_mul_self c
  have hrr : r * r ≤ r * r * r := by
    rw [mul_assoc]
    exact Nat.mul_le_mul_left r hr
  have hcc : c * c ≤ c * c * c := by
    rw [mul_assoc]
    exact Nat.mul_le_mul_left c hc
  have hrc : r * c ≤ r * c * c := by
    rw [mul_assoc]
    exact Nat.mul_le_mul_left r hc
  have hplan : plannedWork r c =
      r * r * r * 2 + c * c * c * 2 + r * r * c + r * c * c := by
    unfold plannedWork
    ring
  rw [hplan] at hcount ⊢
  unfold Machine.plannedScalarOperations Machine.checkedProduct
  simp only [List.foldlM_cons, List.foldlM_nil, bind_assoc, bind_pure]
  apply Within.bind (hcount r _ (by omega))
  intro r' hr'
  apply Within.bind (hcount c _ (by omega))
  intro c' hc'
  rw [hr', hc']
  iterate 12 (apply Within.bind (hcount _ _ (by omega)); rintro _ rfl)
  exact hcount _ _ le_rfl

/-- What the left product holds after some places are filled. -/
structure Filled (left source product : ExactIntegerMatrix) (place : ℕ) : Prop where
  rows : product.rows = source.rows
  cols : product.cols = source.cols
  value : ∀ r < source.rows, ∀ c < source.cols, r * source.cols + c < place →
    product.value r c = dot left source r c

theorem Filled.set {left source product : ExactIntegerMatrix} {row col : ℕ}
    (h : Filled left source product (row * source.cols + col)) (hrow : row < source.rows)
    (hcol : col < source.cols) :
    Filled left source (product.setEntry row col (dot left source row col))
      (row * source.cols + col + 1) where
  rows := h.rows
  cols := h.cols
  value := by
    intro r hr c hc hplace
    rw [ExactIntegerMatrix.value_setEntry _ _ (h.rows ▸ hrow) (h.cols ▸ hcol)]
    split_ifs with heq
    · rw [heq.1, heq.2]
    · apply h.value r hr c hc
      apply lt_of_le_of_ne (Nat.le_of_lt_succ hplace)
      intro hpos
      exact heq (ExactIntegerMatrix.position_inj hc hcol hpos)

theorem Filled.toMatrix {left source product : ExactIntegerMatrix} {m : ℕ}
    (h : Filled left source product (source.rows * source.cols)) (hm : source.rows = m)
    (hcols : left.cols = source.rows) :
    product.toMatrix m source.cols =
      left.toMatrix m source.rows * source.toMatrix source.rows source.cols := by
  subst hm
  ext i j
  rw [toMatrix_mul_apply left source hcols, ExactIntegerMatrix.toMatrix_apply]
  exact h.value i i.isLt j j.isLt (ExactIntegerMatrix.position_lt i.isLt j.isLt)

theorem leftProduct_within {completed : ℕ}
    (hleft : witness.left.rows = source.rows ∧ witness.left.cols = source.rows)
    (hplan : completed + source.rows * source.cols * source.rows ≤ plannedWork source.rows source.cols) :
    Within (VerificationLimit machine budget source witness)
      (fun state => Filled witness.left source state.1 (source.rows * source.cols) ∧
        state.2 = completed + source.rows * source.cols * source.rows)
      (forGrid source.rows source.cols (fun state row col => do
        let (sum, completed) ←
          machine.checkedDot witness.left row source col .leftTimesSource state.2
        pure (state.1.setEntry row col sum, completed))
        (ExactIntegerMatrix.zeroed source.rows source.cols, completed)) := by
  apply forGrid_within (I := fun place (state : ExactIntegerMatrix × ℕ) =>
    Filled witness.left source state.1 place ∧ state.2 = completed + place * source.rows)
  · exact ⟨⟨rfl, rfl, fun r _ c _ hplace => absurd hplace (Nat.not_lt_zero _)⟩, by simp⟩
  rintro row hrow col hcol ⟨product, count⟩ ⟨hfilled, rfl⟩
  have hroom := grid_room hrow hcol hplan
  apply Within.bind (checkedDot_within (hleft.1 ▸ hrow) hleft.2 hcol
    (fun _ _ => rfl) (fun _ _ => rfl) (by rw [hleft.2]; exact hroom))
  rintro ⟨sum, count⟩ ⟨rfl, rfl⟩
  apply Within.ok
  rw [Nat.succ_mul, ← add_assoc, hleft.2]
  exact ⟨hfilled.set hrow hcol, rfl⟩

theorem verifyTransformProduct_settles (hshapes : RightShapes source witness) {completed : ℕ}
    (hplan : completed + source.rows * source.cols * source.rows +
      source.rows * source.cols * source.cols ≤ plannedWork source.rows source.cols) :
    Settles (VerificationLimit machine budget source witness) Refutes
      (witness.left.toMatrix source.rows source.rows * source.toMatrix source.rows source.cols *
        witness.right.toMatrix source.cols source.cols =
        witness.diagonal.toMatrix source.rows source.cols)
      (· = completed + source.rows * source.cols * source.rows +
        source.rows * source.cols * source.cols)
      (machine.verifyTransformProduct source witness completed) := by
  unfold Machine.verifyTransformProduct
  apply Settles.after (checkedExtent_within fun h =>
    Or.inr ⟨source.rows * source.cols, by unfold retainedEntries; omega, h⟩)
  rintro _ rfl
  apply Settles.after (reserveExact_within fun h => h)
  intro _ _
  apply Settles.after (leftProduct_within hshapes.left (by omega))
  rintro ⟨product, count⟩ ⟨hfilled, rfl⟩
  have hproduct : (∀ row < source.rows, ∀ col < source.cols,
      dot product witness.right row col = witness.diagonal.value row col) ↔
      witness.left.toMatrix source.rows source.rows * source.toMatrix source.rows source.cols *
        witness.right.toMatrix source.cols source.cols =
        witness.diagonal.toMatrix source.rows source.cols := by
    rw [← hfilled.toMatrix rfl hshapes.left.2, ← Matrix.ext_iff]
    constructor
    · intro h i j
      rw [toMatrix_mul_apply _ _ hfilled.cols]
      exact h i i.isLt j j.isLt
    · intro h row hrow col hcol
      have hentry := h ⟨row, hrow⟩ ⟨col, hcol⟩
      rw [toMatrix_mul_apply _ _ hfilled.cols] at hentry
      exact hentry
  apply Settles.congr _ hproduct
  apply forGrid_settles (I := fun place count => count =
    completed + source.rows * source.cols * source.rows + place * source.cols) (by simp)
  rintro row hrow col hcol _ rfl
  have hroom := grid_room hrow hcol hplan
  dsimp only at hfilled
  have hleft : ∀ t < product.cols, (operands source witness .diagonalTransform).1 row t =
      product.value row t := by
    intro t ht
    have hlt : t < source.cols := hfilled.cols ▸ ht
    exact (hfilled.value row hrow t hlt (ExactIntegerMatrix.position_lt hrow hlt)).symm
  apply Settles.after (checkedDot_within (hfilled.rows ▸ hrow)
    (hfilled.cols.trans hshapes.right.1.symm) (hshapes.right.2 ▸ hcol) hleft
    (fun _ _ => rfl) (by rw [hfilled.cols]; exact hroom))
  rintro ⟨actual, count⟩ ⟨rfl, rfl⟩
  refine Settles.bindCheck (refuseIf_settles ?_) ?_ ?_
  · rfl
  · rw [not_not, ExactIntegerMatrix.value_of_lt (hshapes.diagonal.1 ▸ hrow)
      (hshapes.diagonal.2 ▸ hcol)]
  intro _ _ _
  rw [Nat.succ_mul, ← add_assoc]
  exact Within.ok (by rw [hfilled.cols])

/-- The verifier settles the equations of a witness. -/
theorem verifySmithNormalForm_settles (machine : Machine) (source : ExactIntegerMatrix)
    (witness : SmithNormalFormWitness) (budget : ExactAlgebraBudget) :
    Settles (VerificationLimit machine budget source witness) Refutes
      (RightShapes source witness ∧ Equations source witness)
      (fun verified => verified.source = source ∧ verified.witness = witness ∧
        verified.rank = (factorsOf witness.diagonal).length ∧
        verified.invariantFactors = factorsOf witness.diagonal ∧
        verified.scalarOperations = plannedWork source.rows source.cols)
      (machine.verifySmithNormalForm source witness budget) := by
  have hequations : ((witness.left.toMatrix source.rows source.rows *
        witness.leftInverse.toMatrix source.rows source.rows = 1) ∧
      (witness.leftInverse.toMatrix source.rows source.rows *
        witness.left.toMatrix source.rows source.rows = 1) ∧
      (witness.right.toMatrix source.cols source.cols *
        witness.rightInverse.toMatrix source.cols source.cols = 1) ∧
      (witness.rightInverse.toMatrix source.cols source.cols *
        witness.right.toMatrix source.cols source.cols = 1) ∧
      Canonical witness.diagonal ∧
      witness.left.toMatrix source.rows source.rows * source.toMatrix source.rows source.cols *
        witness.right.toMatrix source.cols source.cols =
        witness.diagonal.toMatrix source.rows source.cols) ↔ Equations source witness :=
    ⟨fun ⟨h1, h2, h3, h4, h5, h6⟩ => ⟨⟨h1, h2, h3, h4, h6⟩, h5⟩,
      fun ⟨⟨h1, h2, h3, h4, h6⟩, h5⟩ => ⟨h1, h2, h3, h4, h5, h6⟩⟩
  have hplan : plannedWork source.rows source.cols = plannedWork source.rows source.cols := rfl
  nth_rewrite 2 [plannedWork] at hplan
  unfold Machine.verifySmithNormalForm
  apply Settles.bind preflightShapes_settles
  intro _ hshapes _
  apply Settles.congr _ hequations
  apply Settles.after plannedScalarOperations_within
  rintro _ rfl
  apply Settles.after (refuseIf_within fun h => ⟨rfl, h⟩)
  intro _ _
  apply Settles.bind (verifyIdentityProduct_settles hshapes.left hshapes.leftInverse rfl (by omega))
  rintro _ _ rfl
  apply Settles.bind (verifyIdentityProduct_settles hshapes.leftInverse hshapes.left rfl (by omega))
  rintro _ _ rfl
  apply Settles.bind (verifyIdentityProduct_settles hshapes.right hshapes.rightInverse rfl (by omega))
  rintro _ _ rfl
  apply Settles.bind (verifyIdentityProduct_settles hshapes.rightInverse hshapes.right rfl (by omega))
  rintro _ _ rfl
  apply Settles.bind verifyCanonicalDiagonal_settles
  rintro _ _ rfl
  have hcommute : source.rows * source.cols * source.rows = source.rows * source.rows * source.cols :=
    Nat.mul_right_comm _ _ _
  apply Settles.bindValue (verifyTransformProduct_settles hshapes (by omega))
  rintro _ _ rfl
  refine ⟨rfl, rfl, rfl, rfl, ?_⟩
  dsimp only
  omega

end Stages

/-- A vector of sixteen-byte entries holds fewer than `2 ^ 59` of them. -/
structure Stored (matrix : ExactIntegerMatrix) : Prop where
  rows : matrix.rows < 2 ^ 64
  cols : matrix.cols < 2 ^ 64
  entries : matrix.entries.length < 2 ^ 59

/-- Every matrix of a witness is one that the machine stores. -/
structure StoredWitness (w : SmithNormalFormWitness) : Prop where
  diagonal : Stored w.diagonal
  left : Stored w.left
  leftInverse : Stored w.leftInverse
  right : Stored w.right
  rightInverse : Stored w.rightInverse

/-- An explicit budget, a refused allocation or an overflow of `i128`. -/
def ExplicitRefusal (allocates : String → ℕ → Bool) (budget : ExactAlgebraBudget)
    (source : ExactIntegerMatrix) (w : SmithNormalFormWitness) (error : IntegralTopologyError) :
    Prop :=
  VerificationLimit (.word allocates) budget source w error ∧
    ∀ phase, error ≠ .workPlanOverflow phase

theorem rows_lt_of_stored {matrix : ExactIntegerMatrix} {n : ℕ} (h : Stored matrix)
    (hshape : matrix.rows = n ∧ matrix.cols = n) : n < 2 ^ 30 := by
  have hlength := h.entries
  rw [matrix.length_eq, hshape.1, hshape.2] at hlength
  by_contra hn
  have hsquare : 2 ^ 30 * 2 ^ 30 ≤ n * n := Nat.mul_le_mul (by omega) (by omega)
  omega

/-- The work plan of stored matrices fits the words of the machine. -/
theorem explicit_of_limit {allocates : String → ℕ → Bool} {budget : ExactAlgebraBudget}
    {source : ExactIntegerMatrix} {w : SmithNormalFormWitness} {error : IntegralTopologyError}
    (hstored : StoredWitness w) (hshapes : RightShapes source w)
    (h : VerificationLimit (.word allocates) budget source w error) :
    ExplicitRefusal allocates budget source w error := by
  refine ⟨h, ?_⟩
  rintro phase rfl
  have hrows := rows_lt_of_stored hstored.left hshapes.left
  have hcols := rows_lt_of_stored hstored.right hshapes.right
  have hprod (a b : ℕ) (ha : a < 2 ^ 30) (hb : b < 2 ^ 30) : a * b < 2 ^ 60 := by
    have hlt := Nat.mul_lt_mul'' ha hb
    omega
  have hcube (a b c : ℕ) (ha : a < 2 ^ 30) (hb : b < 2 ^ 30) (hc : c < 2 ^ 30) :
      a * b * c < 2 ^ 90 := by
    have hlt := Nat.mul_lt_mul'' (hprod a b ha hb) hc
    omega
  rcases h with ⟨n, hn, hcount⟩ | ⟨n, hn, hextent⟩
  · have hbig : 2 ^ 128 ≤ n := by
      simpa [Machine.word] using hcount
    have h1 := hcube _ _ _ hrows hrows hrows
    have h2 := hcube _ _ _ hcols hcols hcols
    have h3 := hcube _ _ _ hrows hrows hcols
    have h4 := hcube _ _ _ hrows hcols hcols
    unfold plannedWork at hn
    omega
  · have hbig : 2 ^ 64 ≤ n := by
      simpa [Machine.word] using hextent
    have h1 := hprod _ _ hrows hcols
    have h2 := hprod _ _ hrows hrows
    have h3 := hprod _ _ hcols hcols
    unfold retainedEntries at hn
    omega

theorem Canonical.divisorChain {source : ExactIntegerMatrix} {w : SmithNormalFormWitness}
    (h : Canonical w.diagonal) (hshapes : RightShapes source w) :
    DivisorChain (min source.rows source.cols) fun i => w.diagonal.value i i where
  nonneg := by
    rw [← hshapes.diagonal.1, ← hshapes.diagonal.2]
    exact h.nonneg
  dvd := by
    rw [← hshapes.diagonal.1, ← hshapes.diagonal.2]
    intro i j hij hj
    rcases Nat.lt_or_eq_of_le hij with hij | rfl
    · exact ((canonical_iff.1 h).2 j hj).2 i hij
    · exact dvd_rfl

theorem Canonical.toMatrix_eq {source : ExactIntegerMatrix} {w : SmithNormalFormWitness}
    (h : Canonical w.diagonal) (hshapes : RightShapes source w) :
    w.diagonal.toMatrix source.rows source.cols =
      rectDiagonal source.rows source.cols fun i => w.diagonal.value i i := by
  ext i j
  rw [ExactIntegerMatrix.toMatrix_apply, rectDiagonal, Matrix.of_apply]
  split_ifs with heq
  · rw [heq]
  · apply h.offDiagonal _ _ _ _ heq
    · rw [hshapes.diagonal.1]
      exact i.isLt
    · rw [hshapes.diagonal.2]
      exact j.isLt

/-- The factors of a source are those of every witness that satisfies the equations. -/
theorem factorsOf_unique {source : ExactIntegerMatrix} {w w' : SmithNormalFormWitness}
    (hshapes : RightShapes source w) (hshapes' : RightShapes source w') (h : Equations source w)
    (h' : Equations source w') : factorsOf w.diagonal = factorsOf w'.diagonal := by
  have heq := diagonal_unique (h.canonical.divisorChain hshapes)
    (h'.canonical.divisorChain hshapes') h.transforms.inverse_mul_left
    h.transforms.right_mul_inverse h.transforms.inverse_mul_right
    h'.transforms.inverse_mul_left h'.transforms.right_mul_inverse
    h'.transforms.inverse_mul_right
    (h.transforms.transform.trans (h.canonical.toMatrix_eq hshapes))
    (h'.transforms.transform.trans (h'.canonical.toMatrix_eq hshapes'))
  unfold factorsOf
  rw [hshapes.diagonal.1, hshapes.diagonal.2, hshapes'.diagonal.1, hshapes'.diagonal.2]
  congr 1
  apply List.map_congr_left
  intro i hi
  exact heq i (List.mem_range.1 hi)

/-- Both transforms are unimodular and take the source to a canonical diagonal. -/
structure NormalForm (source : ExactIntegerMatrix) (w : SmithNormalFormWitness) : Prop where
  left : IsUnit (w.left.toMatrix source.rows source.rows).det
  right : IsUnit (w.right.toMatrix source.cols source.cols).det
  transform : w.left.toMatrix source.rows source.rows * source.toMatrix source.rows source.cols *
    w.right.toMatrix source.cols source.cols = w.diagonal.toMatrix source.rows source.cols
  canonical : Canonical w.diagonal

theorem Equations.normalForm {source : ExactIntegerMatrix} {w : SmithNormalFormWitness}
    (h : Equations source w) : NormalForm source w where
  left := by
    apply IsUnit.of_mul_eq_one
    rw [← Matrix.det_mul, h.transforms.left_mul_inverse, Matrix.det_one]
  right := by
    apply IsUnit.of_mul_eq_one
    rw [← Matrix.det_mul, h.transforms.right_mul_inverse, Matrix.det_one]
  transform := h.transforms.transform
  canonical := h.canonical

/-- Verification is sound and complete for the equations of a witness, and the rank and
the factors it returns depend on the source alone. -/
theorem verification_sound_complete (allocates : String → ℕ → Bool) (source : ExactIntegerMatrix)
    (w : SmithNormalFormWitness) (budget : ExactAlgebraBudget) :
    (∀ verified, (Machine.word allocates).verifySmithNormalForm source w budget = .ok verified →
      RightShapes source w ∧ NormalForm source w ∧ Equations source w) ∧
    (∀ error, (Machine.word allocates).verifySmithNormalForm source w budget = .error error →
      error.failureClass = .refuted → RightShapes source w → ¬ Equations source w) ∧
    (Stored source → StoredWitness w → RightShapes source w → Equations source w →
      (∃ verified, (Machine.word allocates).verifySmithNormalForm source w budget = .ok verified) ∨
      ∃ error, (Machine.word allocates).verifySmithNormalForm source w budget = .error error ∧
        ExplicitRefusal allocates budget source w error) ∧
    (∀ allocates' w' budget' verified verified',
      (Machine.word allocates).verifySmithNormalForm source w budget = .ok verified →
      (Machine.word allocates').verifySmithNormalForm source w' budget' = .ok verified' →
      verified.rank = verified'.rank ∧ verified.invariantFactors = verified'.invariantFactors) := by
  have hsettles := verifySmithNormalForm_settles (.word allocates) source w budget
  refine ⟨fun verified hok => ?_, fun error herror hrefuted hshapes => ?_,
    fun _ hstored hshapes hequations => ?_, fun allocates' w' budget' v v' hok hok' => ?_⟩
  · rw [hok] at hsettles
    exact ⟨hsettles.1.1, hsettles.1.2.normalForm, hsettles.1.2⟩
  · rw [herror] at hsettles
    rcases hsettles with hlimit | ⟨_, hnot⟩
    · cases error <;> first | exact hlimit.elim | cases hrefuted
    · exact fun hequations => hnot ⟨hshapes, hequations⟩
  · cases hresult : (Machine.word allocates).verifySmithNormalForm source w budget with
    | ok verified => exact Or.inl ⟨verified, rfl⟩
    | error error =>
      rw [hresult] at hsettles
      rcases hsettles with hlimit | ⟨_, hnot⟩
      · exact Or.inr ⟨error, rfl, explicit_of_limit hstored hshapes hlimit⟩
      · exact absurd ⟨hshapes, hequations⟩ hnot
  · have hsettles' := verifySmithNormalForm_settles (.word allocates') source w' budget'
    rw [hok] at hsettles
    rw [hok'] at hsettles'
    obtain ⟨⟨hshapes, hequations⟩, _, _, hrank, hfactors, _⟩ := hsettles
    obtain ⟨⟨hshapes', hequations'⟩, _, _, hrank', hfactors', _⟩ := hsettles'
    have hunique := factorsOf_unique hshapes hshapes' hequations hequations'
    rw [hrank, hrank', hfactors, hfactors', hunique]
    exact ⟨rfl, rfl⟩

/-- A matrix of rank two with the factors 2 and 6. -/
def rankTwo : ExactIntegerMatrix := ⟨3, 3, [2, 2, 0, 2, 8, 6, 0, 6, 6], rfl⟩

def rankTwoWitness : SmithNormalFormWitness where
  diagonal := ⟨3, 3, [2, 0, 0, 0, 6, 0, 0, 0, 0], rfl⟩
  left := ⟨3, 3, [1, 0, 0, -1, 1, 0, 1, -1, 1], rfl⟩
  leftInverse := ⟨3, 3, [1, 0, 0, 1, 1, 0, 0, 1, 1], rfl⟩
  right := ⟨3, 3, [1, -1, 1, 0, 1, -1, 0, 0, 1], rfl⟩
  rightInverse := ⟨3, 3, [1, 1, 0, 0, 1, 1, 0, 0, 1], rfl⟩

/-- The first row and the first column with their signs changed. -/
def negatedWitness : SmithNormalFormWitness where
  diagonal := rankTwoWitness.diagonal
  left := ⟨3, 3, [-1, 0, 0, -1, 1, 0, 1, -1, 1], rfl⟩
  leftInverse := ⟨3, 3, [-1, 0, 0, -1, 1, 0, 0, 1, 1], rfl⟩
  right := ⟨3, 3, [-1, -1, 1, 0, 1, -1, 0, 0, 1], rfl⟩
  rightInverse := ⟨3, 3, [-1, -1, 0, 0, 1, 1, 0, 0, 1], rfl⟩

def refusalClass {α : Type} : Except IntegralTopologyError α →
    Option IntegralTopologyFailureClass
  | .ok _ => none
  | .error error => some error.failureClass

theorem error_of_refusalClass {α : Type} {result : Except IntegralTopologyError α}
    {kind : IntegralTopologyFailureClass} (h : refusalClass result = some kind) :
    ∃ error, result = .error error ∧ error.failureClass = kind := by
  cases result with
  | ok value => cases h
  | error error => exact ⟨error, rfl, Option.some.inj h⟩

theorem ok_of_toOption {ε α β : Type} {f : α → β} {b : β} {result : Except ε α}
    (h : result.toOption.map f = some b) : ∃ a, result = .ok a ∧ f a = b := by
  cases result with
  | error error => cases h
  | ok a => exact ⟨a, rfl, Option.some.inj h⟩

/-- Two witnesses of one matrix are accepted with the same factors, a wrong inverse is refuted,
and a budget that is too small by one is the only refusal of a right witness. -/
theorem verification_rankTwo :
    let machine := Machine.word fun _ _ => true
    (∃ verified verified',
      machine.verifySmithNormalForm rankTwo rankTwoWitness .unlimited = .ok verified ∧
      machine.verifySmithNormalForm rankTwo negatedWitness .unlimited = .ok verified' ∧
      verified.invariantFactors = [2, 6] ∧ verified'.rank = 2 ∧
      verified.invariantFactors = verified'.invariantFactors ∧
      Equations rankTwo rankTwoWitness ∧ NormalForm rankTwo negatedWitness) ∧
    ¬ Equations rankTwo { rankTwoWitness with leftInverse := rankTwoWitness.left } ∧
    ∃ error, machine.verifySmithNormalForm rankTwo rankTwoWitness
        { ExactAlgebraBudget.unlimited with maxScalarOperations := 161 } = .error error ∧
      ExplicitRefusal (fun _ _ => true)
        { ExactAlgebraBudget.unlimited with maxScalarOperations := 161 } rankTwo rankTwoWitness
        error := by
  intro machine
  have haccepted : (machine.verifySmithNormalForm rankTwo rankTwoWitness .unlimited).toOption.map
      VerifiedSmithNormalForm.invariantFactors = some [2, 6] := by decide +kernel
  have haccepted' : (machine.verifySmithNormalForm rankTwo negatedWitness .unlimited).toOption.map
      VerifiedSmithNormalForm.rank = some 2 := by decide +kernel
  have hrefuted : refusalClass (machine.verifySmithNormalForm rankTwo
      { rankTwoWitness with leftInverse := rankTwoWitness.left } .unlimited) = some .refuted := by
    decide +kernel
  have hlimited : refusalClass (machine.verifySmithNormalForm rankTwo rankTwoWitness
      { ExactAlgebraBudget.unlimited with maxScalarOperations := 161 }) = some .unknown := by
    decide +kernel
  have hshapes : RightShapes rankTwo rankTwoWitness :=
    ⟨by decide, by decide, by decide, by decide, by decide⟩
  have hstored : ∀ {matrix : ExactIntegerMatrix}, matrix.rows = 3 → matrix.cols = 3 →
      Stored matrix := by
    intro matrix hrows hcols
    have hlength := matrix.length_eq
    rw [hrows, hcols] at hlength
    exact ⟨by omega, by omega, by omega⟩
  obtain ⟨verified, hok, hfactors⟩ := ok_of_toOption haccepted
  obtain ⟨verified', hok', hrank⟩ := ok_of_toOption haccepted'
  obtain ⟨hsound, -, -, hunique⟩ :=
    verification_sound_complete (fun _ _ => true) rankTwo rankTwoWitness .unlimited
  obtain ⟨-, -, hequations⟩ := hsound verified hok
  refine ⟨⟨verified, verified', hok, hok', hfactors, hrank, (hunique _ _ _ _ _ hok hok').2,
    hequations, ?_⟩, ?_, ?_⟩
  · exact ((verification_sound_complete (fun _ _ => true) rankTwo negatedWitness .unlimited).1
      verified' hok').2.1
  · obtain ⟨error, herror, hclass⟩ := error_of_refusalClass hrefuted
    exact (verification_sound_complete (fun _ _ => true) rankTwo _ .unlimited).2.1 error herror
      hclass ⟨by decide, by decide, by decide, by decide, by decide⟩
  · obtain ⟨error, herror, -⟩ := error_of_refusalClass hlimited
    rcases (verification_sound_complete (fun _ _ => true) rankTwo rankTwoWitness _).2.2.1
      (hstored rfl rfl) ⟨hstored rfl rfl, hstored rfl rfl, hstored rfl rfl, hstored rfl rfl,
        hstored rfl rfl⟩ hshapes hequations with ⟨other, hother⟩ | hexplicit
    · rw [herror] at hother
      cases hother
    · exact hexplicit

/-- A one by one matrix. -/
def single (value : ℤ) : ExactIntegerMatrix := ⟨1, 1, [value], rfl⟩

def oneBudget : ExactAlgebraBudget := ⟨1, 1, 1, 6, 1, 6⟩

/-- The identity witness of the unit matrix, with a wrong inverse of the left transform. -/
def wrongInverse : SmithNormalFormWitness :=
  ⟨single 1, single 1, single 0, single 1, single 1⟩

theorem wrongInverse_normalForm : NormalForm (single 1) wrongInverse := by
  have hone : (single 1).toMatrix 1 1 = 1 := by decide
  have hunit : IsUnit ((single 1).toMatrix 1 1).det := by
    rw [hone, Matrix.det_one]
    exact isUnit_one
  refine ⟨hunit, hunit, ?_, ⟨by decide, by decide, ?_, ?_⟩⟩
  · change (single 1).toMatrix 1 1 * (single 1).toMatrix 1 1 * (single 1).toMatrix 1 1 =
      (single 1).toMatrix 1 1
    rw [hone, Matrix.one_mul, Matrix.one_mul]
  · intro i j hij hj hzero
    change j < 1 at hj
    obtain rfl : i = j := by omega
    exact hzero
  · intro i hi
    change i + 1 < 1 at hi
    omega

/-- A structural refusal does not refute the normal form: the witness carries the inverses. -/
theorem refuted_with_normalForm :
    ¬ ∀ (allocates : String → ℕ → Bool) (source : ExactIntegerMatrix) (w : SmithNormalFormWitness)
      (budget : ExactAlgebraBudget) (error : IntegralTopologyError),
      (Machine.word allocates).verifySmithNormalForm source w budget = .error error →
      error.failureClass = .refuted → RightShapes source w → ¬ NormalForm source w := by
  intro h
  refine h (fun _ _ => true) (single 1) wrongInverse oneBudget
    (.witnessProductMismatch .leftTimesInverse 0 0 1 0) ?_ rfl ?_ wrongInverse_normalForm
  · rfl
  · exact ⟨by decide, by decide, by decide, by decide, by decide⟩

end FrankenSim.Smith
