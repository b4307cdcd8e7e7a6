import FrankenSim.Relative.Boundary
import FrankenSim.Relative.Transport
import FrankenSim.Smith.Witnesses

/-!
# Extracted boundaries form a chain complex

Both the component and the relative subcomplex are closed under faces, so the
coefficients that the extraction keeps still compose to zero. The incoming image then
lies in the kernel, whatever Smith form the outgoing boundary was given.
-/
namespace FrankenSim.Relative

open Library Library.Polled Smith

/-- The faces of a subcomplex's cells are its cells. -/
def Closed (complex : FiniteCellComplex) (cells : CellSet) : Prop :=
  Chains.ClosedUnder BoundaryIncidence.upper BoundaryIncidence.lower complex.incidences
    {cell | cells.contains cell}

theorem requireFaces_ok {id : String} {cells : CellSet} {ambient : FiniteCellComplex}
    {cell : CellRef} : requireFaces id cells ambient cell = .ok () ↔
      ∀ e ∈ ambient.incidences, e.upper = cell → cells.contains e.lower := by
  unfold requireFaces
  rw [forM_ok]
  simp only [List.mem_filter, decide_eq_true_eq, refuseWhen_ok, Bool.not_eq_false, and_imp]

theorem validateSubcomplexAgainst_ok {subcomplex : CellularSubcomplex}
    {ambient : FiniteCellComplex} : validateSubcomplexAgainst subcomplex ambient = .ok () ↔
      (∀ cell, subcomplex.cells.contains cell → ambient.contains cell) ∧
        Closed ambient subcomplex.cells := by
  have hcell : ∀ cell, ((refuseWhen (ambient.contains cell = false)
        (TerminalRelativeError.cellOutOfRange cell) >>= fun _ =>
        requireFaces subcomplex.id subcomplex.cells ambient cell) = .ok ()) ↔
      ambient.contains cell ∧ ∀ e ∈ ambient.incidences, e.upper = cell →
        subcomplex.cells.contains e.lower := by
    intro cell
    simp only [bind_eq_ok_iff, refuseWhen_ok, requireFaces_ok, exists_const, Bool.not_eq_false]
  unfold validateSubcomplexAgainst
  rw [forM_ok]
  simp only [hcell, ← SortedMap.contains_iff, forall_and]
  apply and_congr_right
  intro _
  constructor
  · intro h e he hupper
    exact h e.upper hupper e he rfl
  · rintro h cell hmem e he rfl
    exact h e he hmem

/-- The component that a phase owns. -/
def TerminalRelativePair.componentOf (pair : TerminalRelativePair) (phase : String) :
    Option ConductorComponent :=
  (pair.phaseComponent phase).bind fun id => pair.components.find? fun component => component.id = id

/-- The ordered basis of a degree on a component. -/
def quotientBasis (pair : TerminalRelativePair) (component : ConductorComponent)
    (degree : Option ℕ) : List CellRef :=
  component.support.cells.keys.filter (pair.hasBasisCell degree)

theorem mem_quotientBasis {pair : TerminalRelativePair} {component : ConductorComponent}
    {degree : Option ℕ} {cell : CellRef} : cell ∈ quotientBasis pair component degree ↔
      component.support.cells.contains cell ∧ ¬ pair.relative.cells.contains cell ∧
        some cell.degree = degree := by
  rw [quotientBasis, List.mem_filter, ← SortedMap.contains_iff, TerminalRelativePair.hasBasisCell]
  simp only [Bool.and_eq_true, Bool.not_eq_true', decide_eq_true_eq, Bool.not_eq_true]

theorem sorted_quotientBasis (pair : TerminalRelativePair) (component : ConductorComponent)
    (degree : Option ℕ) : (quotientBasis pair component degree).Pairwise (· < ·) :=
  component.support.cells.sorted.filter _

/-- A boundary matrix between two bases has the sign of every incidence between them and
zero elsewhere. -/
structure HoldsIncidences (incidences : List BoundaryIncidence)
    (boundary : TerminalRelativeBoundaryMatrix) : Prop where
  rows : boundary.matrix.rows = boundary.targetBasis.length
  cols : boundary.matrix.cols = boundary.sourceBasis.length
  incident : ∀ e ∈ incidences, ∀ row col, boundary.targetBasis[row]? = some e.lower →
    boundary.sourceBasis[col]? = some e.upper → boundary.matrix.get row col = some e.sign.asI128
  absent : ∀ row < boundary.matrix.rows, ∀ col < boundary.matrix.cols,
    (∀ e ∈ incidences, ¬ (boundary.targetBasis[row]? = some e.lower ∧
      boundary.sourceBasis[col]? = some e.upper)) → boundary.matrix.get row col = some 0

section Coefficients

variable {incidences : List BoundaryIncidence} {lower upper : CellRef}

theorem cellBoundary_concat (incidences : List BoundaryIncidence) (e : BoundaryIncidence)
    (lower upper : CellRef) : cellBoundary (incidences ++ [e]) upper lower =
      cellBoundary incidences upper lower +
        if e.upper = upper ∧ e.lower = lower then e.sign.asI128 else 0 := by
  unfold cellBoundary
  rw [Chains.cellBoundary_apply, Chains.cellBoundary_apply, List.filter_append, List.filter_append,
    List.map_append, List.sum_append]
  congr 1
  by_cases hupper : e.upper = upper
  · by_cases hlower : e.lower = lower
    · simp [hupper, hlower]
    · simp [hupper, hlower]
  · simp [hupper]

/-- Without an incidence between two cells their coefficient is zero. -/
theorem cellBoundary_eq_zero (h : ∀ e ∈ incidences, ¬ (e.upper = upper ∧ e.lower = lower)) :
    cellBoundary incidences upper lower = 0 := by
  by_contra hne
  obtain ⟨e, he, hupper, hlower⟩ := Chains.exists_incidence hne
  exact h e he ⟨hupper, hlower⟩

/-- Without duplicates the coefficient of an incidence is its sign. -/
theorem cellBoundary_of_mem (hduplicates : DuplicateFree incidences) {e : BoundaryIncidence}
    (he : e ∈ incidences) : cellBoundary incidences e.upper e.lower = e.sign.asI128 := by
  induction incidences using List.reverseRecOn with
  | nil => cases he
  | append_singleton incidences last ih =>
    obtain ⟨hbefore, -, hlast⟩ := List.pairwise_append.1 hduplicates
    rw [cellBoundary_concat]
    rcases List.mem_append.1 he with hmem | hmem
    · rw [ih hbefore hmem, if_neg, add_zero]
      intro hsame
      exact hlast e hmem last (List.mem_singleton_self _) ⟨hsame.1.symm, hsame.2.symm⟩
    · obtain rfl := List.mem_singleton.1 hmem
      rw [if_pos ⟨rfl, rfl⟩, cellBoundary_eq_zero, zero_add]
      intro f hf hsame
      exact hlast f hf e (List.mem_singleton_self _) hsame

end Coefficients

/-- The entries between two bases are the coefficients of the incidences so far. -/
structure Projected (targetBasis sourceBasis : List CellRef) (incidences : List BoundaryIncidence)
    (matrix : ExactIntegerMatrix) : Prop where
  rows : matrix.rows = targetBasis.length
  cols : matrix.cols = sourceBasis.length
  entries : ∀ row col lower upper, targetBasis[row]? = some lower → sourceBasis[col]? = some upper →
    matrix.value row col = cellBoundary incidences upper lower

theorem Projected.zeroed (targetBasis sourceBasis : List CellRef) :
    Projected targetBasis sourceBasis []
      (ExactIntegerMatrix.zeroed targetBasis.length sourceBasis.length) where
  rows := rfl
  cols := rfl
  entries row col lower upper _ _ := by
    rw [ExactIntegerMatrix.value_zeroed, cellBoundary_eq_zero]
    intro e he
    cases he

/-- Projecting an incidence that occurs for the first time adds its coefficient. -/
theorem Projected.step {targetBasis sourceBasis : List CellRef}
    (htarget : targetBasis.Pairwise (· < ·)) (hsource : sourceBasis.Pairwise (· < ·))
    {incidences : List BoundaryIncidence} {e : BoundaryIncidence}
    (hduplicates : DuplicateFree (incidences ++ [e])) {matrix : ExactIntegerMatrix}
    (h : Projected targetBasis sourceBasis incidences matrix) :
    Projected targetBasis sourceBasis (incidences ++ [e])
      (projectEntry targetBasis sourceBasis matrix e) := by
  have hfresh : cellBoundary incidences e.upper e.lower = 0 := by
    apply cellBoundary_eq_zero
    intro f hf hsame
    exact (List.pairwise_append.1 hduplicates).2.2 f hf e (List.mem_singleton_self _) hsame
  unfold projectEntry
  split
  case h_1 row col hrow hcol =>
    rw [binarySearch_eq_some htarget] at hrow
    rw [binarySearch_eq_some hsource] at hcol
    have hrowlt := (List.getElem?_eq_some_iff.1 hrow).1
    have hcollt := (List.getElem?_eq_some_iff.1 hcol).1
    refine ⟨h.rows, h.cols, ?_⟩
    intro r c lower upper hlower hupper
    rw [ExactIntegerMatrix.value_setEntry _ _ (h.rows ▸ hrowlt) (h.cols ▸ hcollt),
      cellBoundary_concat]
    -- strictly sorted bases have one place for each cell
    by_cases hplace : r = row ∧ c = col
    · obtain ⟨rfl, rfl⟩ := hplace
      obtain rfl := Option.some.inj (hrow.symm.trans hlower)
      obtain rfl := Option.some.inj (hcol.symm.trans hupper)
      rw [if_pos ⟨rfl, rfl⟩, if_pos ⟨rfl, rfl⟩, hfresh, zero_add]
    · rw [if_neg hplace, h.entries r c lower upper hlower hupper, if_neg, add_zero]
      rintro ⟨rfl, rfl⟩
      apply hplace
      rw [← binarySearch_eq_some htarget] at hrow hlower
      rw [← binarySearch_eq_some hsource] at hcol hupper
      exact ⟨Option.some.inj (hlower.symm.trans hrow), Option.some.inj (hupper.symm.trans hcol)⟩
  case h_2 hnone =>
    refine ⟨h.rows, h.cols, ?_⟩
    intro r c lower upper hlower hupper
    rw [h.entries r c lower upper hlower hupper, cellBoundary_concat, if_neg, add_zero]
    rintro ⟨rfl, rfl⟩
    exact hnone r c ((binarySearch_eq_some htarget).2 hlower)
      ((binarySearch_eq_some hsource).2 hupper)

/-- A projected matrix has the sign of every incidence and zero elsewhere. -/
theorem Projected.holdsIncidences {incidences : List BoundaryIncidence}
    (hduplicates : DuplicateFree incidences) {boundary : TerminalRelativeBoundaryMatrix}
    (h : Projected boundary.targetBasis boundary.sourceBasis incidences boundary.matrix) :
    HoldsIncidences incidences boundary where
  rows := h.rows
  cols := h.cols
  incident e he row col hlower hupper := by
    have hrow := (List.getElem?_eq_some_iff.1 hlower).1
    have hcol := (List.getElem?_eq_some_iff.1 hupper).1
    rw [ExactIntegerMatrix.get, if_neg (by rw [h.rows, h.cols]; omega),
      ← ExactIntegerMatrix.value_of_lt (h.rows ▸ hrow) (h.cols ▸ hcol),
      h.entries row col _ _ hlower hupper, cellBoundary_of_mem hduplicates he]
  absent row hrow col hcol hnone := by
    rw [ExactIntegerMatrix.get, if_neg (by omega), ← ExactIntegerMatrix.value_of_lt hrow hcol]
    have hlower := List.getElem?_eq_getElem (h.rows ▸ hrow)
    have hupper := List.getElem?_eq_getElem (h.cols ▸ hcol)
    rw [h.entries row col _ _ hlower hupper, cellBoundary_eq_zero]
    intro e he hsame
    exact hnone e he ⟨hsame.2 ▸ hlower, hsame.1 ▸ hupper⟩

section Extraction

variable {machine : Machine} {pair : TerminalRelativePair} {sourceDegree : ℕ}
  {checkpoint : Checkpoint} {planned : ℕ}

/-- Any refusal is admitted. -/
def AnyRefusal : RelativeError → Prop := fun _ => True

theorem algebra_within {α : Type} {x : Except IntegralTopologyError α} {Q : α → Prop}
    (hx : Within (fun _ => True) Q x) : Ensures AnyRefusal Q (algebra x) := by
  apply Ensures.unpolled
  cases x with
  | error e => trivial
  | ok a => exact hx

theorem algebra_any {α : Type} (x : Except IntegralTopologyError α) :
    Ensures AnyRefusal (fun _ => True) (algebra x) := by
  apply algebra_within
  cases x <;> trivial

theorem checkedExtent_algebra (value : ℕ) (phase : String) :
    Ensures AnyRefusal (· = value) (algebra (machine.checkedExtent value phase)) :=
  algebra_within (checkedExtent_within fun _ => trivial)

theorem countCell_ensures {counts : Bool} {count : ℕ} {phase : String} :
    Ensures AnyRefusal (· = count + if counts then 1 else 0)
      (countCell machine counts count phase) := by
  unfold countCell
  split
  · exact checkedExtent_algebra _ _
  · exact Ensures.pure rfl

theorem filter_concat {α : Type} (p : α → Bool) (l : List α) (a : α) :
    (l ++ [a]).filter p = if p a then l.filter p ++ [a] else l.filter p := by
  rw [List.filter_append]
  cases h : p a <;> simp [h]

/-- The counts are the lengths of the bases. -/
theorem countBasis_ensures (cells : List CellRef) :
    Ensures AnyRefusal (fun count =>
        count.sourceCount = (cells.filter (pair.hasBasisCell (some sourceDegree))).length ∧
        count.targetCount = (cells.filter (pair.hasBasisCell (degreeBelow sourceDegree))).length)
      (cells.foldlM (countBasisCell machine pair sourceDegree checkpoint planned) ⟨0, 0, 0⟩) := by
  apply Ensures.foldlM (I := fun passed (count : BasisCount) =>
    count.sourceCount = (passed.filter (pair.hasBasisCell (some sourceDegree))).length ∧
    count.targetCount = (passed.filter (pair.hasBasisCell (degreeBelow sourceDegree))).length)
  · exact ⟨rfl, rfl⟩
  · intro passed cell later count _ hcount
    unfold countBasisCell
    apply Ensures.bind (Ensures.poll trivial)
    intro _ _
    apply Ensures.bind countCell_ensures
    rintro _ rfl
    apply Ensures.bind countCell_ensures
    rintro _ rfl
    apply Ensures.bind (algebra_any _)
    intro completed _
    apply Ensures.pure
    simp only [filter_concat, hcount]
    constructor <;> split_ifs <;> simp

/-- The collected bases are the basis cells in their order. -/
theorem materializeBasis_ensures (cells : List CellRef) (completed : ℕ) :
    Ensures AnyRefusal (fun bases =>
        bases.sourceBasis = cells.filter (pair.hasBasisCell (some sourceDegree)) ∧
        bases.targetBasis = cells.filter (pair.hasBasisCell (degreeBelow sourceDegree)))
      (cells.foldlM (materializeBasisCell machine pair sourceDegree checkpoint planned)
        ⟨completed, [], []⟩) := by
  apply Ensures.foldlM (I := fun passed (bases : BasisCells) =>
    bases.sourceBasis = passed.filter (pair.hasBasisCell (some sourceDegree)) ∧
    bases.targetBasis = passed.filter (pair.hasBasisCell (degreeBelow sourceDegree)))
  · exact ⟨rfl, rfl⟩
  · intro passed cell later bases _ hbases
    unfold materializeBasisCell
    apply Ensures.bind (Ensures.poll trivial)
    intro _ _
    apply Ensures.bind (algebra_any _)
    intro completed _
    apply Ensures.pure
    simp only [filter_concat, hbases, and_self]

/-- The projection writes the coefficients of all incidences. -/
theorem projectIncidences_ensures {targetBasis sourceBasis : List CellRef}
    (htarget : targetBasis.Pairwise (· < ·)) (hsource : sourceBasis.Pairwise (· < ·))
    {incidences : List BoundaryIncidence} (hduplicates : DuplicateFree incidences)
    {matrix : ExactIntegerMatrix} (hmatrix : Projected targetBasis sourceBasis [] matrix)
    (completed : ℕ) :
    Ensures AnyRefusal (fun state => Projected targetBasis sourceBasis incidences state.1)
      (incidences.foldlM (projectIncidence machine checkpoint planned targetBasis sourceBasis)
        (matrix, completed)) := by
  apply Ensures.foldlM (I := fun passed (state : ExactIntegerMatrix × ℕ) =>
    Projected targetBasis sourceBasis passed state.1)
  · exact hmatrix
  · intro passed e later state hl hstate
    unfold projectIncidence
    apply Ensures.bind (Ensures.poll trivial)
    intro _ _
    apply Ensures.bind (algebra_any _)
    intro completed _
    apply Ensures.pure
    apply hstate.step htarget hsource
    apply List.Pairwise.sublist _ hduplicates
    rw [← hl]
    exact (List.Sublist.refl _).append (List.cons_sublist_cons.2 (List.nil_sublist _))

/-- What an extraction returns for the component of its phase. -/
structure Extracted (pair : TerminalRelativePair) (phase : String) (sourceDegree : ℕ)
    (boundary : TerminalRelativeBoundaryMatrix) (component : ConductorComponent) : Prop where
  component_eq : pair.componentOf phase = some component
  sourceBasis : boundary.sourceBasis = quotientBasis pair component (some sourceDegree)
  targetBasis : boundary.targetBasis = quotientBasis pair component (degreeBelow sourceDegree)
  projected : Projected boundary.targetBasis boundary.sourceBasis pair.complex.incidences
    boundary.matrix

/-- Every extraction that returns has the bases and the entries of its degree. -/
theorem extract_ensures (hduplicates : DuplicateFree pair.complex.incidences) (phase : String)
    (budget : TerminalRelativeBoundaryBudget) :
    Ensures AnyRefusal (fun boundary => ∃ component,
        Extracted pair phase sourceDegree boundary component)
      (extractTerminalRelativeBoundaryMatrixWithCheckpoint machine pair phase sourceDegree budget
        checkpoint) := by
  unfold extractTerminalRelativeBoundaryMatrixWithCheckpoint
  apply Ensures.bind (Ensures.orRefuse fun _ => trivial)
  intro componentId hid
  have hdegree : Ensures AnyRefusal (fun _ => True)
      (checkedDegree (pair.complex.dimension + 1) "terminal-relative edge degree") := by
    apply Ensures.unpolled
    split <;> trivial
  apply Ensures.bind hdegree
  intro maxSourceDegree _
  apply Ensures.bind (Ensures.refuseIf fun _ => trivial)
  intro _ _
  apply Ensures.bind (Ensures.orRefuse fun _ => trivial)
  intro component hcomponent
  apply Ensures.bind (algebra_any _)
  intro componentVisits _
  apply Ensures.bind (Ensures.refuseIf fun _ => trivial)
  intro _ _
  apply Ensures.bind (Ensures.refuseIf fun _ => trivial)
  intro _ _
  apply Ensures.bind (algebra_any _)
  intro planned _
  apply Ensures.bind (Ensures.poll trivial)
  intro _ _
  apply Ensures.bind (countBasis_ensures _)
  rintro count ⟨hsourceCount, htargetCount⟩
  have hpreflight : Ensures AnyRefusal (fun _ => True)
      (preflightBoundaryOutput machine count.targetCount count.sourceCount budget) := by
    unfold preflightBoundaryOutput
    apply Ensures.bind (Ensures.refuseIf fun _ => trivial)
    intro _ _
    apply Ensures.bind (algebra_any _)
    intro _ _
    apply Ensures.bind (Ensures.refuseIf fun _ => trivial)
    intro _ _
    apply Ensures.bind (algebra_any _)
    intro _ _
    exact (Ensures.refuseIf fun _ => trivial).imp fun _ _ => trivial
  apply Ensures.bind hpreflight
  intro _ _
  apply Ensures.bind (algebra_any _)
  intro _ _
  apply Ensures.bind (algebra_any _)
  intro _ _
  apply Ensures.bind (materializeBasis_ensures _ _)
  rintro bases ⟨hsource, htarget⟩
  apply Ensures.bind (algebra_any _)
  intro _ _
  apply Ensures.bind (algebra_any _)
  intro _ _
  have hsourceSorted : bases.sourceBasis.Pairwise (· < ·) := by
    rw [hsource]
    exact sorted_quotientBasis pair component (some sourceDegree)
  have htargetSorted : bases.targetBasis.Pairwise (· < ·) := by
    rw [htarget]
    exact sorted_quotientBasis pair component (degreeBelow sourceDegree)
  rw [← hsource] at hsourceCount
  rw [← htarget] at htargetCount
  rw [hsourceCount, htargetCount]
  apply Ensures.bind (projectIncidences_ensures htargetSorted hsourceSorted hduplicates
    (Projected.zeroed _ _) _)
  intro projected hprojected
  apply Ensures.bind (Ensures.poll trivial)
  intro _ _
  apply Ensures.pure
  refine ⟨component, ?_, hsource, htarget, hprojected⟩
  rw [TerminalRelativePair.componentOf, hid, Option.bind_some, hcomponent]

end Extraction

theorem Extracted.mem_sourceBasis {pair : TerminalRelativePair} {phase : String} {k : ℕ}
    {boundary : TerminalRelativeBoundaryMatrix} {component : ConductorComponent}
    (h : Extracted pair phase k boundary component) {cell : CellRef} :
    cell ∈ boundary.sourceBasis ↔ component.support.cells.contains cell ∧
      ¬ pair.relative.cells.contains cell ∧ some cell.degree = some k := by
  rw [h.sourceBasis, mem_quotientBasis]

theorem Extracted.mem_targetBasis {pair : TerminalRelativePair} {phase : String} {k : ℕ}
    {boundary : TerminalRelativeBoundaryMatrix} {component : ConductorComponent}
    (h : Extracted pair phase k boundary component) {cell : CellRef} :
    cell ∈ boundary.targetBasis ↔ component.support.cells.contains cell ∧
      ¬ pair.relative.cells.contains cell ∧ some cell.degree = degreeBelow k := by
  rw [h.targetBasis, mem_quotientBasis]

/-- A list of distinct elements summed place by place. -/
theorem sum_getElem {M : List CellRef} (hnodup : M.Nodup) (f : CellRef → ℤ) :
    ∑ t : Fin M.length, f (M.get t) = ∑ b ∈ M.toFinset, f b := by
  rw [List.sum_toFinset f hnodup, ← List.sum_ofFn]
  congr 1
  apply List.ext_getElem <;> simp

/-- The boundaries of two adjacent degrees compose to zero. -/
theorem Extracted.product_eq_zero {pair : TerminalRelativePair} {phase : String} {k : ℕ}
    {outgoing incoming : TerminalRelativeBoundaryMatrix} {component : ConductorComponent}
    (hdegrees : ∀ e ∈ pair.complex.incidences, e.lower.degree + 1 = e.upper.degree)
    (hsquares : BoundarySquaresToZero pair.complex.incidences)
    (hrelative : Closed pair.complex pair.relative.cells)
    (hsupport : Closed pair.complex component.support.cells)
    (hout : Extracted pair phase k outgoing component)
    (hin : Extracted pair phase (k + 1) incoming component) :
    outgoing.matrix.toMatrix outgoing.targetBasis.length outgoing.sourceBasis.length *
      incoming.matrix.toMatrix outgoing.sourceBasis.length incoming.sourceBasis.length = 0 := by
  have hshared : incoming.targetBasis = outgoing.sourceBasis := hin.targetBasis.trans
    hout.sourceBasis.symm
  have hnodup : outgoing.sourceBasis.Nodup := by
    rw [hout.sourceBasis]
    exact (sorted_quotientBasis _ _ _).imp fun h => ne_of_lt h
  ext i j
  have hentry : ∀ t : Fin outgoing.sourceBasis.length,
      outgoing.matrix.value i t * incoming.matrix.value t j =
        cellBoundary pair.complex.incidences (outgoing.sourceBasis.get t)
            (outgoing.targetBasis.get i) *
          cellBoundary pair.complex.incidences (incoming.sourceBasis.get j)
            (outgoing.sourceBasis.get t) := by
    intro t
    rw [hout.projected.entries i t _ _ (List.getElem?_eq_getElem i.2)
        (List.getElem?_eq_getElem t.2),
      hin.projected.entries t j (outgoing.sourceBasis.get t) _
        (by rw [hshared]; exact List.getElem?_eq_getElem t.2) (List.getElem?_eq_getElem j.2)]
    rfl
  rw [Matrix.mul_apply, Matrix.zero_apply]
  simp only [ExactIntegerMatrix.toMatrix_apply, hentry]
  rw [sum_getElem hnodup fun b =>
    cellBoundary pair.complex.incidences b (outgoing.targetBasis.get i) *
      cellBoundary pair.complex.incidences (incoming.sourceBasis.get j) b]
  have hsource := hin.mem_sourceBasis.1 (List.get_mem incoming.sourceBasis j)
  have htarget := hout.mem_targetBasis.1 (List.get_mem outgoing.targetBasis i)
  apply Chains.sum_relative hsquares hsupport hrelative hsource.1 htarget.2.1
  -- a face in the component and outside the relative subcomplex is in the middle basis
  intro b hb hnot hcoefficient
  obtain ⟨e, he, hupper, rfl⟩ := Chains.exists_incidence hcoefficient
  have hdegree := hdegrees e he
  have hk := Option.some.inj hsource.2.2
  rw [hupper, hk] at hdegree
  apply List.mem_toFinset.2
  apply hout.mem_sourceBasis.2
  exact ⟨hb, hnot, congrArg some (Nat.succ.inj hdegree)⟩

section Kernel

/-- A verified Smith form satisfies the equations of its witness. -/
structure SmithFacts (smith : VerifiedSmithNormalForm) : Prop where
  shapes : RightShapes smith.source smith.witness
  equations : Equations smith.source smith.witness
  rank : smith.rank = (factorsOf smith.witness.diagonal).length

theorem smithFacts_of_verified {machine : Machine} {source : ExactIntegerMatrix}
    {witness : SmithNormalFormWitness} {budget : ExactAlgebraBudget}
    {smith : VerifiedSmithNormalForm}
    (h : machine.verifySmithNormalForm source witness budget = .ok smith) : SmithFacts smith := by
  have hsettled := (verifySmithNormalForm_settles machine source witness budget).of_ok h
  obtain ⟨⟨hshapes, hequations⟩, rfl, rfl, hrank, -, -⟩ := hsettled
  exact ⟨hshapes, hequations, hrank⟩

/-- Places before the rank carry the non-zero diagonal entries. -/
theorem diagonal_ne_zero {diagonal : ExactIntegerMatrix} (h : Canonical diagonal) {row : ℕ}
    (hrow : row < (factorsOf diagonal).length) :
    row < min diagonal.rows diagonal.cols ∧ diagonal.value row row ≠ 0 := by
  have hlt : row < min diagonal.rows diagonal.cols := by
    have hle := List.length_filter_le (· ≠ 0) ((List.range (min diagonal.rows diagonal.cols)).map
      fun i => diagonal.value i i)
    rw [List.length_map, List.length_range] at hle
    exact lt_of_lt_of_le hrow hle
  refine ⟨hlt, ?_⟩
  intro hzero
  -- from a zero on, the diagonal contributes no factors
  have hsplit : min diagonal.rows diagonal.cols = row + (min diagonal.rows diagonal.cols - row) := by
    omega
  have hrest : (((List.range (min diagonal.rows diagonal.cols - row)).map (row + ·)).map
      fun i => diagonal.value i i).filter (· ≠ 0) = [] := by
    apply List.filter_eq_nil_iff.2
    intro v hv
    obtain ⟨i, hi, rfl⟩ := List.mem_map.1 hv
    obtain ⟨j, hj, rfl⟩ := List.mem_map.1 hi
    have := List.mem_range.1 hj
    simpa using h.zerosLast row (row + j) (by omega) (by omega) hzero
  unfold factorsOf at hrow
  rw [hsplit, List.range_add, List.map_append, List.filter_append, hrest, List.append_nil] at hrow
  have hle := List.length_filter_le (· ≠ 0) ((List.range row).map fun i => diagonal.value i i)
  rw [List.length_map, List.length_range] at hle
  omega

/-- What the source maps to zero has no coordinates before the rank. -/
theorem coordinate_eq_zero {smith : VerifiedSmithNormalForm} (h : SmithFacts smith) {c : ℕ}
    {B : Matrix (Fin smith.source.cols) (Fin c) ℤ}
    (hzero : smith.source.toMatrix smith.source.rows smith.source.cols * B = 0)
    {row : Fin smith.source.cols} (hrow : row.val < smith.rank) (col : Fin c) :
    (smith.witness.rightInverse.toMatrix smith.source.cols smith.source.cols * B) row col = 0 := by
  rw [h.rank] at hrow
  obtain ⟨hlt, hne⟩ := diagonal_ne_zero h.equations.canonical hrow
  rw [h.shapes.diagonal.1] at hlt
  have hproduct : smith.witness.diagonal.toMatrix smith.source.rows smith.source.cols *
      (smith.witness.rightInverse.toMatrix smith.source.cols smith.source.cols * B) = 0 := by
    rw [← h.equations.transforms.transform, Matrix.mul_assoc, ← Matrix.mul_assoc _ _ B,
      h.equations.transforms.right_mul_inverse, Matrix.one_mul, Matrix.mul_assoc, hzero,
      Matrix.mul_zero]
  have hentry := congrFun (congrFun hproduct ⟨row, by omega⟩) col
  rw [h.equations.canonical.toMatrix_eq h.shapes, Matrix.mul_apply, Finset.sum_eq_single row,
    Matrix.zero_apply, rectDiagonal, Matrix.of_apply, if_pos rfl] at hentry
  · exact (mul_eq_zero.1 hentry).resolve_left hne
  · intro j _ hj
    rw [rectDiagonal, Matrix.of_apply, if_neg, zero_mul]
    intro heq
    exact hj (Fin.ext heq.symm)
  · intro hnot
    exact absurd (Finset.mem_univ row) hnot

/-- An image is refused as outside the kernel only when it is. -/
def StaysInKernel (outside : Prop) : RelativeError → Prop
  | .incomingImageOutsideKernel .. => outside
  | _ => True

variable {outside : Prop} {machine : Machine} {checkpoint : Checkpoint}
  {bindingItems scalarOperations : ℕ}

theorem algebra_stays {α : Type} (x : Except IntegralTopologyError α) :
    Ensures (StaysInKernel outside) (fun _ => True) (algebra x) := by
  apply Ensures.unpolled
  cases x <;> trivial

theorem checkedDegree_stays (degree : ℕ) (phase : String) :
    Ensures (StaysInKernel outside) (fun _ => True) (checkedDegree degree phase) := by
  apply Ensures.unpolled
  split <;> trivial

theorem checkedDot_value {left right : ExactIntegerMatrix} {row col completed : ℕ}
    {stage : SmithWitnessStage} (hrow : row < left.rows) (hmid : left.cols = right.rows)
    (hcol : col < right.cols) :
    Within (fun _ => True) (fun state => state.1 = dot left right row col)
      (machine.checkedDot left row right col stage completed) := by
  unfold Machine.checkedDot
  apply Within.range_foldlM (I := fun term (state : ℤ × ℕ) =>
    state.1 = ∑ t ∈ Finset.range term, left.value row t * right.value t col) (by simp)
  rintro term hterm ⟨sum, count⟩ hsum
  dsimp only at hsum ⊢
  rw [← ExactIntegerMatrix.value_of_lt hrow hterm,
    ← ExactIntegerMatrix.value_of_lt (show term < right.rows by omega) hcol]
  apply Within.bind (checkedCoefficient_within fun _ => trivial)
  rintro _ rfl
  apply Within.bind (checkedCoefficient_within fun _ => trivial)
  rintro _ rfl
  apply Within.bind (checkedCount_within fun _ => trivial)
  rintro _ rfl
  apply Within.ok
  rw [hsum, Finset.sum_range_succ]

/-- The image has these kernel coordinates of the incoming boundary. -/
structure Transported (smith : VerifiedSmithNormalForm) (incoming : ExactIntegerMatrix)
    (passed : ℕ → ℕ → Prop) (image : ExactIntegerMatrix) : Prop where
  rows : image.rows = smith.source.cols - smith.rank
  cols : image.cols = incoming.cols
  before : ∀ row col, passed row col → row < smith.rank →
    dot smith.witness.rightInverse incoming row col = 0
  after : ∀ row col, passed row col → smith.rank ≤ row →
    image.value (row - smith.rank) col = dot smith.witness.rightInverse incoming row col

namespace Transported

variable {incoming image : ExactIntegerMatrix} {smith : VerifiedSmithNormalForm}
  {passed passed' : ℕ → ℕ → Prop} {row col : ℕ}

theorem mono (h : Transported smith incoming passed image)
    (hpassed : ∀ row col, passed' row col → passed row col) :
    Transported smith incoming passed' image where
  rows := h.rows
  cols := h.cols
  before := fun row col hrow => h.before row col (hpassed row col hrow)
  after := fun row col hrow => h.after row col (hpassed row col hrow)

theorem vanish (h : Transported smith incoming passed image) (hrank : row < smith.rank)
    (hzero : dot smith.witness.rightInverse incoming row col = 0) :
    Transported smith incoming (fun r c => passed r c ∨ r = row ∧ c = col) image where
  rows := h.rows
  cols := h.cols
  before := by
    rintro r c (hpassed | ⟨rfl, rfl⟩) hr
    · exact h.before r c hpassed hr
    · exact hzero
  after := by
    rintro r c (hpassed | ⟨rfl, rfl⟩) hr
    · exact h.after r c hpassed hr
    · omega

theorem retain (h : Transported smith incoming passed image) (hrow : row < smith.source.cols)
    (hcol : col < incoming.cols) (hrank : smith.rank ≤ row) :
    Transported smith incoming (fun r c => passed r c ∨ r = row ∧ c = col)
      (image.setEntry (row - smith.rank) col
        (dot smith.witness.rightInverse incoming row col)) where
  rows := h.rows
  cols := h.cols
  before := by
    rintro r c (hpassed | ⟨rfl, rfl⟩) hr
    · exact h.before r c hpassed hr
    · omega
  after := by
    intro r c hpassed hr
    have hinside : row - smith.rank < image.rows := by
      rw [h.rows]
      omega
    rw [ExactIntegerMatrix.value_setEntry _ _ hinside (h.cols ▸ hcol)]
    split_ifs with heq
    · rw [show r = row by omega, heq.2]
    · rcases hpassed with hpassed | ⟨rfl, rfl⟩
      · exact h.after r c hpassed hr
      · exact absurd ⟨rfl, rfl⟩ heq

end Transported

/-- A transported coordinate vanishes before the rank and is retained from it on. -/
theorem transportCoordinate_ensures {incoming : ExactIntegerMatrix}
    {smith : VerifiedSmithNormalForm} {completedBinding row col : ℕ}
    {state : ExactIntegerMatrix × ℕ} (hsmith : SmithFacts smith)
    (hmid : smith.source.cols = incoming.rows) (hrow : row < smith.source.cols)
    (hcol : col < incoming.cols)
    (hzero : row < smith.rank → dot smith.witness.rightInverse incoming row col ≠ 0 → outside)
    {passed : ℕ → ℕ → Prop} (hstate : Transported smith incoming passed state.1) :
    Ensures (StaysInKernel outside)
      (fun next => Transported smith incoming (fun r c => passed r c ∨ r = row ∧ c = col) next.1)
      (transportCoordinate machine checkpoint bindingItems scalarOperations incoming smith
        completedBinding row state col) := by
  have hright := hsmith.shapes.rightInverse
  unfold transportCoordinate
  apply Ensures.bind (Ensures.poll trivial)
  intro _ _
  have hdot : Ensures (StaysInKernel outside)
      (fun r : ℤ × ℕ => r.1 = dot smith.witness.rightInverse incoming row col)
      (unpolled ((machine.checkedDot smith.witness.rightInverse row incoming col
        .rightInverseTimesTransform state.2).mapError atKernelCoordinate)) := by
    apply Ensures.unpolled
    have hvalue : Within (fun _ => True) (fun r : ℤ × ℕ =>
        r.1 = dot smith.witness.rightInverse incoming row col)
        (machine.checkedDot smith.witness.rightInverse row incoming col
          .rightInverseTimesTransform state.2) :=
      checkedDot_value (hright.1 ▸ hrow) (hright.2.trans hmid) hcol
    cases hrun : machine.checkedDot smith.witness.rightInverse row incoming col
        .rightInverseTimesTransform state.2 with
    | error e => cases e <;> trivial
    | ok r =>
      rw [hrun] at hvalue
      exact hvalue
  apply Ensures.bind hdot
  rintro ⟨coordinate, completed⟩ rfl
  dsimp only
  split
  case isTrue hrank =>
    apply Ensures.bind (Ensures.refuseIf (hzero hrank))
    intro _ hvanishes
    exact Ensures.pure (hstate.vanish hrank (not_not.1 hvanishes))
  case isFalse hrank => exact Ensures.pure (hstate.retain hrow hcol (not_lt.1 hrank))

/-- A row of coordinates. -/
theorem transportRow_ensures {incoming : ExactIntegerMatrix} {smith : VerifiedSmithNormalForm}
    {completedBinding row : ℕ} {state : ExactIntegerMatrix × ℕ} (hsmith : SmithFacts smith)
    (hmid : smith.source.cols = incoming.rows) (hrow : row < smith.source.cols)
    (hzero : ∀ col < incoming.cols, row < smith.rank →
      dot smith.witness.rightInverse incoming row col ≠ 0 → outside)
    {passed : ℕ → ℕ → Prop} (hstate : Transported smith incoming passed state.1) :
    Ensures (StaysInKernel outside)
      (fun next => Transported smith incoming
        (fun r c => passed r c ∨ r = row ∧ c ∈ List.range incoming.cols) next.1)
      ((List.range incoming.cols).foldlM (transportCoordinate machine checkpoint bindingItems
        scalarOperations incoming smith completedBinding row) state) := by
  apply Ensures.foldlM (I := fun passedCols (state : ExactIntegerMatrix × ℕ) =>
    Transported smith incoming (fun r c => passed r c ∨ r = row ∧ c ∈ passedCols) state.1)
  · exact hstate.mono fun r c h => h.resolve_right fun h => List.not_mem_nil h.2
  · intro passedCols col laterCols state hcols hstate
    have hcol : col < incoming.cols := by
      apply List.mem_range.1
      rw [← hcols]
      exact List.mem_append_right _ List.mem_cons_self
    apply Ensures.imp (transportCoordinate_ensures hsmith hmid hrow hcol (hzero col hcol) hstate)
    intro next hnext
    apply hnext.mono
    rintro r c (hpassed | ⟨rfl, hc⟩)
    · exact Or.inl (Or.inl hpassed)
    · rcases List.mem_append.1 hc with hc | hc
      · exact Or.inl (Or.inr ⟨rfl, hc⟩)
      · exact Or.inr ⟨rfl, List.mem_singleton.1 hc⟩

/-- All rows of coordinates. -/
theorem transportRows_ensures {incoming : ExactIntegerMatrix} {smith : VerifiedSmithNormalForm}
    {completedBinding : ℕ} (hsmith : SmithFacts smith) (hmid : smith.source.cols = incoming.rows)
    (hzero : ∀ row < smith.source.cols, ∀ col < incoming.cols, row < smith.rank →
      dot smith.witness.rightInverse incoming row col ≠ 0 → outside) :
    Ensures (StaysInKernel outside)
      (fun next => Transported smith incoming
        (fun row col => row < smith.source.cols ∧ col < incoming.cols) next.1)
      ((List.range smith.source.cols).foldlM (fun state row =>
        (List.range incoming.cols).foldlM (transportCoordinate machine checkpoint bindingItems
          scalarOperations incoming smith completedBinding row) state)
        (ExactIntegerMatrix.zeroed (smith.source.cols - smith.rank) incoming.cols, 0)) := by
  simp only [← List.mem_range]
  apply Ensures.foldlM (I := fun passedRows (state : ExactIntegerMatrix × ℕ) =>
    Transported smith incoming (fun row col =>
      row ∈ passedRows ∧ col ∈ List.range incoming.cols) state.1)
  · exact ⟨rfl, rfl, fun _ _ h => absurd h.1 List.not_mem_nil,
      fun _ _ h => absurd h.1 List.not_mem_nil⟩
  · intro passedRows row laterRows state hrows hstate
    have hrow : row < smith.source.cols := by
      apply List.mem_range.1
      rw [← hrows]
      exact List.mem_append_right _ List.mem_cons_self
    apply Ensures.imp (transportRow_ensures hsmith hmid hrow (hzero row hrow) hstate)
    intro next hnext
    apply hnext.mono
    rintro r c ⟨hr, hc⟩
    rcases List.mem_append.1 hr with hr | hr
    · exact Or.inl ⟨hr, hc⟩
    · exact Or.inr ⟨List.mem_singleton.1 hr, hc⟩

theorem bindSharedBasis_stays (outgoing incoming : TerminalRelativeBoundaryMatrix) :
    Ensures (StaysInKernel outside) (fun _ => True)
      (bindSharedBasis checkpoint bindingItems scalarOperations outgoing incoming) := by
  unfold bindSharedBasis
  apply Ensures.foldlM (I := fun _ _ => True) trivial
  intro passed entry later completed _ _
  apply Ensures.bind (Ensures.poll trivial)
  intro _ _
  apply Ensures.bind (Ensures.refuseIf fun _ => trivial)
  intro _ _
  exact Ensures.pure trivial

/-- Matrices of one shape whose entries agree one by one are equal. -/
theorem eq_of_zip {source matrix : ExactIntegerMatrix} (hrows : source.rows = matrix.rows)
    (hcols : source.cols = matrix.cols)
    (hall : ∀ entry ∈ (matrix.entries.zip source.entries).zipIdx, entry.1.1 = entry.1.2) :
    source = matrix := by
  have hlength : source.entries.length = matrix.entries.length := by
    rw [source.length_eq, matrix.length_eq, hrows, hcols]
  have hentries : source.entries = matrix.entries := by
    apply List.ext_getElem hlength
    intro i hsource hmatrix
    apply Eq.symm
    apply hall ((matrix.entries[i], source.entries[i]), i)
    apply List.mem_zipIdx_iff_getElem?.2
    rw [List.getElem?_zip_eq_some]
    exact ⟨List.getElem?_eq_getElem hmatrix, List.getElem?_eq_getElem hsource⟩
  cases source
  cases matrix
  cases hrows
  cases hcols
  cases hentries
  rfl

/-- After the comparison the Smith form is one of the outgoing matrix. -/
theorem bindSmithSource_ensures {outgoing : ExactIntegerMatrix} {smith : VerifiedSmithNormalForm}
    (hrows : smith.source.rows = outgoing.rows) (hcols : smith.source.cols = outgoing.cols)
    (completedBinding : ℕ) :
    Ensures (StaysInKernel outside) (fun _ => smith.source = outgoing)
      (bindSmithSource checkpoint bindingItems scalarOperations outgoing smith
        completedBinding) := by
  unfold bindSmithSource
  apply Ensures.imp
  · apply Ensures.foldlM_forall (P := fun entry : (ℤ × ℤ) × ℕ => entry.1.1 = entry.1.2)
    intro entry completed
    apply Ensures.bind (Ensures.poll trivial)
    intro _ _
    apply Ensures.bind (Ensures.refuseIf fun _ => trivial)
    intro _ hequal
    exact Ensures.pure (not_not.1 hequal)
  · intro _ hall
    exact eq_of_zip hrows hcols hall

/-- What a transport returns. -/
structure Transports (outgoing incoming : TerminalRelativeBoundaryMatrix)
    (smith : VerifiedSmithNormalForm) (transport : VerifiedTerminalRelativeKernelTransport) :
    Prop where
  outgoing_eq : transport.outgoing = outgoing
  incoming_eq : transport.incoming = incoming
  smith_eq : transport.outgoingSmith = smith
  source : smith.source = outgoing.matrix
  basis : outgoing.matrix.cols = outgoing.sourceBasis.length
  inner : smith.source.cols = incoming.matrix.rows
  rank : smith.rank ≤ smith.source.cols
  image : Transported smith incoming.matrix
    (fun row col => row < smith.source.cols ∧ col < incoming.matrix.cols) transport.kernelImage

theorem preflightAdjacentBoundaryBindings_stays
    (outgoing incoming : TerminalRelativeBoundaryMatrix) :
    Ensures (StaysInKernel outside) (fun _ => True)
      (preflightAdjacentBoundaryBindings outgoing incoming) := by
  unfold preflightAdjacentBoundaryBindings
  apply Ensures.bind (Ensures.refuseIf fun _ => trivial)
  intro _ _
  apply Ensures.bind (Ensures.refuseIf fun _ => trivial)
  intro _ _
  apply Ensures.bind (Ensures.refuseIf fun _ => trivial)
  intro _ _
  apply Ensures.bind (checkedDegree_stays _ _)
  intro _ _
  apply Ensures.bind (Ensures.refuseIf fun _ => trivial)
  intro _ _
  apply Ensures.bind (Ensures.refuseIf fun _ => trivial)
  intro _ _
  exact (Ensures.refuseIf fun _ => trivial).imp fun _ _ => trivial

/-- A transport that returns has the kernel coordinates, and is refused as an image outside
the kernel only when the boundaries do not compose to zero. -/
theorem transport_ensures {smith : VerifiedSmithNormalForm} (hsmith : SmithFacts smith)
    {outgoing incoming : TerminalRelativeBoundaryMatrix}
    (hzero : outgoing.matrix.toMatrix outgoing.matrix.rows outgoing.matrix.cols *
      incoming.matrix.toMatrix outgoing.matrix.cols incoming.matrix.cols ≠ 0 → outside)
    (budget : KernelCoordinateBudget) :
    Ensures (StaysInKernel outside) (Transports outgoing incoming smith)
      (verifyTerminalRelativeKernelTransportWithCheckpoint machine outgoing incoming smith budget
        checkpoint) := by
  unfold verifyTerminalRelativeKernelTransportWithCheckpoint
  apply Ensures.bind (preflightAdjacentBoundaryBindings_stays _ _)
  intro _ _
  apply Ensures.bind (Ensures.refuseIf fun _ => trivial)
  intro _ hbasis
  rw [not_or, not_not, not_not] at hbasis
  apply Ensures.bind (Ensures.refuseIf fun _ => trivial)
  intro _ _
  apply Ensures.bind (Ensures.refuseIf fun _ => trivial)
  intro _ hinner
  apply Ensures.bind (Ensures.refuseIf fun _ => trivial)
  intro _ hshape
  apply Ensures.bind (Ensures.refuseIf fun _ => trivial)
  intro _ hrank
  apply Ensures.bind (Ensures.refuseIf fun _ => trivial)
  intro _ _
  apply Ensures.bind (algebra_stays _)
  intro outputEntries _
  apply Ensures.bind (Ensures.refuseIf fun _ => trivial)
  intro _ _
  apply Ensures.bind (algebra_stays _)
  intro bindingItems _
  apply Ensures.bind (Ensures.refuseIf fun _ => trivial)
  intro _ _
  apply Ensures.bind (algebra_stays _)
  intro scalarOperations _
  apply Ensures.bind (Ensures.refuseIf fun _ => trivial)
  intro _ _
  apply Ensures.bind (algebra_stays _)
  intro retainedEntries _
  apply Ensures.bind (Ensures.refuseIf fun _ => trivial)
  intro _ _
  apply Ensures.bind (Ensures.poll trivial)
  intro _ _
  apply Ensures.bind (bindSharedBasis_stays _ _)
  intro completedBasis _
  rw [not_or, not_not, not_not] at hshape
  apply Ensures.bind (bindSmithSource_ensures hshape.1 hshape.2 _)
  intro completedBinding hsource
  apply Ensures.bind (Ensures.poll trivial)
  intro _ _
  apply Ensures.bind (algebra_stays _)
  intro _ _
  rw [← hsource] at hzero hinner ⊢
  have houtside : ∀ row < smith.source.cols, ∀ col < incoming.matrix.cols, row < smith.rank →
      dot smith.witness.rightInverse incoming.matrix row col ≠ 0 → outside := by
    intro row hrow col hcol hrank hne
    apply hzero
    intro hproduct
    have hcoordinate :=
      @coordinate_eq_zero smith hsmith _ _ hproduct ⟨row, hrow⟩ hrank ⟨col, hcol⟩
    rw [toMatrix_mul_apply _ _ hsmith.shapes.rightInverse.2] at hcoordinate
    exact hne hcoordinate
  apply Ensures.bind (transportRows_ensures hsmith (not_not.1 hinner).symm houtside)
  intro transported htransported
  apply Ensures.bind (Ensures.poll trivial)
  intro _ _
  apply Ensures.pure
  refine ⟨rfl, rfl, rfl, hsource, hbasis.2, (not_not.1 hinner).symm, ?_, htransported⟩
  rw [hsource]
  exact not_lt.1 hrank

end Kernel

/-- Two adjacent boundaries share the basis between them, have exactly the signs of the
incidences and compose to zero. -/
structure AdjacentBoundaries (pair : TerminalRelativePair) (component : ConductorComponent) (k : ℕ)
    (outgoing incoming : TerminalRelativeBoundaryMatrix) : Prop where
  basis : outgoing.sourceBasis = quotientBasis pair component (some k)
  shared : incoming.targetBasis = outgoing.sourceBasis
  outgoing_holds : HoldsIncidences pair.complex.incidences outgoing
  incoming_holds : HoldsIncidences pair.complex.incidences incoming
  product : outgoing.matrix.toMatrix outgoing.matrix.rows outgoing.matrix.cols *
    incoming.matrix.toMatrix outgoing.matrix.cols incoming.matrix.cols = 0

/-- Adjacent extractions from subcomplexes of an admitted complex. -/
theorem adjacentBoundaries {pair : TerminalRelativePair} {dimension : ℕ} {counts : List ℕ}
    {incidences : List BoundaryIncidence}
    (hadmitted : FiniteCellComplex.tryNew dimension counts incidences = .ok pair.complex)
    (hrelative : validateSubcomplexAgainst pair.relative pair.complex = .ok ())
    {phase : String} {component : ConductorComponent}
    (hcomponent : pair.componentOf phase = some component)
    (hsupport : validateSubcomplexAgainst component.support pair.complex = .ok ()) {k : ℕ}
    {machine : Machine} {budget budget' : TerminalRelativeBoundaryBudget}
    {checkpoint checkpoint' : Checkpoint} {seen seen' last last' : List String}
    {outgoing incoming : TerminalRelativeBoundaryMatrix}
    (hout : extractTerminalRelativeBoundaryMatrixWithCheckpoint machine pair phase k budget
      checkpoint seen = .ok (outgoing, last))
    (hin : extractTerminalRelativeBoundaryMatrixWithCheckpoint machine pair phase (k + 1) budget'
      checkpoint' seen' = .ok (incoming, last')) :
    AdjacentBoundaries pair component k outgoing incoming := by
  obtain ⟨hadmissible, hsquares, hcomplex⟩ := tryNew_eq_ok.1 hadmitted
  have hperm : pair.complex.incidences.Perm incidences := by
    rw [hcomplex]
    exact sortByKey_perm _ _
  have hduplicates : DuplicateFree pair.complex.incidences :=
    (hperm.pairwise_iff fun h hback => h ⟨hback.1.symm, hback.2.symm⟩).2 hadmissible.duplicateFree
  have hdegrees : ∀ e ∈ pair.complex.incidences, e.lower.degree + 1 = e.upper.degree :=
    fun e he => hadmissible.degrees e (hperm.mem_iff.1 he)
  have hzero : BoundarySquaresToZero pair.complex.incidences := by
    unfold BoundarySquaresToZero boundary
    rw [Chains.boundary_perm hperm]
    exact hsquares
  obtain ⟨_, hextracted⟩ := (extract_ensures hduplicates phase budget).of_ok hout
  obtain ⟨_, hextracted'⟩ := (extract_ensures hduplicates phase budget').of_ok hin
  obtain rfl := Option.some.inj (hcomponent.symm.trans hextracted.component_eq)
  obtain rfl := Option.some.inj (hcomponent.symm.trans hextracted'.component_eq)
  refine ⟨hextracted.sourceBasis, hextracted'.targetBasis.trans hextracted.sourceBasis.symm,
    hextracted.projected.holdsIncidences hduplicates,
    hextracted'.projected.holdsIncidences hduplicates, ?_⟩
  rw [hextracted.projected.rows, hextracted.projected.cols, hextracted'.projected.cols]
  exact hextracted.product_eq_zero hdegrees hzero (validateSubcomplexAgainst_ok.1 hrelative).2
    (validateSubcomplexAgainst_ok.1 hsupport).2 hextracted'

/-- The extracted boundaries of an admitted complex form a chain complex, whose images lie in
the kernels that the transport checks, and a list is admitted exactly when its boundary
squares to zero. -/
theorem relative_boundaries_chain_complex (dimension : ℕ) (counts : List ℕ)
    (incidences : List BoundaryIncidence) :
    (∀ pair : TerminalRelativePair,
      FiniteCellComplex.tryNew dimension counts incidences = .ok pair.complex →
      validateSubcomplexAgainst pair.relative pair.complex = .ok () →
      ∀ phase component, pair.componentOf phase = some component →
      validateSubcomplexAgainst component.support pair.complex = .ok () →
      ∀ k machine budget budget' checkpoint checkpoint' seen seen' last last' outgoing incoming,
      extractTerminalRelativeBoundaryMatrixWithCheckpoint machine pair phase k budget
        checkpoint seen = .ok (outgoing, last) →
      extractTerminalRelativeBoundaryMatrixWithCheckpoint machine pair phase (k + 1) budget'
        checkpoint' seen' = .ok (incoming, last') →
      AdjacentBoundaries pair component k outgoing incoming ∧
      ∀ (verifier : Machine) source witness verifierBudget smith,
        verifier.verifySmithNormalForm source witness verifierBudget = .ok smith →
        ∀ transportBudget transportCheckpoint polled row col coordinate factor,
          verifyTerminalRelativeKernelTransportWithCheckpoint machine outgoing incoming smith
            transportBudget transportCheckpoint polled ≠
              .error (.incomingImageOutsideKernel row col coordinate factor)) ∧
    (Admissible dimension counts incidences →
      ((∃ complex, FiniteCellComplex.tryNew dimension counts incidences = .ok complex) ↔
        BoundarySquaresToZero incidences)) := by
  constructor
  · intro pair hadmitted hrelative phase component hcomponent hsupport k machine budget budget'
      checkpoint checkpoint' seen seen' last last' outgoing incoming hout hin
    have hadjacent :=
      adjacentBoundaries hadmitted hrelative hcomponent hsupport hout hin
    refine ⟨hadjacent, ?_⟩
    intro verifier source witness verifierBudget smith hsmith transportBudget transportCheckpoint
      polled row col coordinate factor herror
    exact (transport_ensures (smithFacts_of_verified hsmith) (absurd hadjacent.product)
      transportBudget).of_error herror
  · intro hadmissible
    constructor
    · rintro ⟨complex, hcomplex⟩
      exact (tryNew_eq_ok.1 hcomplex).2.1
    · intro hsquares
      exact ⟨_, tryNew_eq_ok.2 ⟨hadmissible, hsquares, rfl⟩⟩

/-- A disk of two vertices, two edges and one face. -/
def diskIncidences : List BoundaryIncidence :=
  [⟨⟨1, 0⟩, ⟨2, 0⟩, .positive⟩, ⟨⟨1, 1⟩, ⟨2, 0⟩, .negative⟩, ⟨⟨0, 0⟩, ⟨1, 0⟩, .negative⟩,
    ⟨⟨0, 1⟩, ⟨1, 0⟩, .positive⟩, ⟨⟨0, 0⟩, ⟨1, 1⟩, .negative⟩, ⟨⟨0, 1⟩, ⟨1, 1⟩, .positive⟩]

def diskCells (cells : List CellRef) : CellSet :=
  cells.foldl (fun set cell => set.insert cell ()) SortedMap.empty

def diskCore : ConductorComponent :=
  ⟨"core", ⟨"core", diskCells [⟨0, 0⟩, ⟨0, 1⟩, ⟨1, 0⟩, ⟨1, 1⟩, ⟨2, 0⟩]⟩⟩

/-- The whole disk as one component, relative to its first vertex. -/
def diskPair : TerminalRelativePair where
  identity := []
  complex := ⟨2, [2, 2, 1], sortByKey BoundaryIncidence.key diskIncidences⟩
  relative := ⟨"relative", diskCells [⟨0, 0⟩]⟩
  components := [diskCore]
  phaseComponents := SortedMap.empty.insert "a" "core"

def diskEdges : TerminalRelativeBoundaryMatrix :=
  ⟨[], "a", "core", 1, some 0, [⟨1, 0⟩, ⟨1, 1⟩], [⟨0, 1⟩], ⟨1, 2, [1, 1], rfl⟩, 16⟩

def diskFace : TerminalRelativeBoundaryMatrix :=
  ⟨[], "a", "core", 2, some 1, [⟨2, 0⟩], [⟨1, 0⟩, ⟨1, 1⟩], ⟨2, 1, [1, -1], rfl⟩, 16⟩

def diskBudget : TerminalRelativeBoundaryBudget := ⟨2, 2, 2, 5, 10, 6⟩

/-- A Smith form of the edges of the disk. -/
def diskSmith : VerifiedSmithNormalForm where
  source := ⟨1, 2, [1, 1], rfl⟩
  witness := ⟨⟨1, 2, [1, 0], rfl⟩, ⟨1, 1, [1], rfl⟩, ⟨1, 1, [1], rfl⟩,
    ⟨2, 2, [1, -1, 0, 1], rfl⟩, ⟨2, 2, [1, 1, 0, 1], rfl⟩⟩
  rank := 1
  invariantFactors := [1]
  scalarOperations := 24

/-- The extraction of one degree of the disk without cancellation. -/
def extractDisk (k : ℕ) : Except RelativeError (TerminalRelativeBoundaryMatrix × List String) :=
  extractTerminalRelativeBoundaryMatrixWithCheckpoint .unbounded diskPair "a" k diskBudget
    (fun _ _ => true) []

theorem exists_last {ε α : Type} {x : Except ε (α × List String)} {a : α}
    (h : x.map Prod.fst = .ok a) : ∃ last, x = .ok (a, last) := by
  cases x with
  | error e => cases h
  | ok r =>
    cases h
    exact ⟨r.2, rfl⟩

theorem relative_boundaries_disk : AdjacentBoundaries diskPair diskCore 1 diskEdges diskFace ∧
    verifyTerminalRelativeKernelTransportWithCheckpoint .unbounded diskEdges diskFace diskSmith
      ⟨2, 1, 40, 4, 4⟩ (fun _ _ => true) [] ≠ .error (.incomingImageOutsideKernel 0 0 1 1) ∧
    BoundarySquaresToZero diskIncidences := by
  have hadmitted : FiniteCellComplex.tryNew 2 [2, 2, 1] diskIncidences = .ok diskPair.complex := by
    decide +kernel
  have hsmith : Machine.unbounded.verifySmithNormalForm diskSmith.source diskSmith.witness
      .unlimited = .ok diskSmith := by rfl
  obtain ⟨last, hedges⟩ := exists_last
    (show (extractDisk 1).map Prod.fst = .ok diskEdges by decide +kernel)
  obtain ⟨last', hface⟩ := exists_last
    (show (extractDisk 2).map Prod.fst = .ok diskFace by decide +kernel)
  obtain ⟨hchain, hadmission⟩ := relative_boundaries_chain_complex 2 [2, 2, 1] diskIncidences
  obtain ⟨hadjacent, htransport⟩ := hchain diskPair hadmitted (by decide +kernel) "a" diskCore
    (by decide +kernel) (by decide +kernel) 1 .unbounded diskBudget diskBudget (fun _ _ => true)
    (fun _ _ => true) [] [] last last' diskEdges diskFace hedges hface
  refine ⟨hadjacent, htransport .unbounded _ _ _ _ hsmith _ _ _ _ _ _ _, ?_⟩
  exact (hadmission (tryNew_eq_ok.1 hadmitted).1).1 ⟨_, hadmitted⟩

end FrankenSim.Relative
