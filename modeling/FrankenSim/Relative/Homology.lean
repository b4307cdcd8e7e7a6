import FrankenSim.Library.Presentations
import FrankenSim.Relative.ChainComplex

/-!
# Homology of two adjacent boundaries

A verified Smith form of the transported image is bound to it, and its factors split into
units and torsion. With the free rank that is left they give the kernel of the outgoing
boundary modulo the image of the incoming one.
-/
namespace FrankenSim.Relative

open Library Library.Polled Smith

structure HomologyDecompositionBudget where
  maxBindingItems : ℕ
  maxRetainedEntries : ℕ

inductive HomologyGeneratorStage
  | originalChainLift
  | cycleVerification
  | boundaryOrderVerification
  deriving DecidableEq, Repr

inductive HomologyCocycleStage
  | originalCochainLift
  | cocycleVerification
  | periodDualVerification
  deriving DecidableEq, Repr

inductive HomologyClassStage
  | cycleVerification
  | outgoingSmithCoordinateTransform
  | presentationCoordinateTransform
  | freePeriodVerification
  | boundaryAdjustment
  | decompositionVerification
  deriving DecidableEq, Repr

/-- Refusals of the homology and of the stages above it, beside those of exact matrix work. -/
inductive HomologyError
  | algebra (error : IntegralTopologyError)
  | homologySmithSourceShapeMismatch (expectedRows expectedCols actualRows actualCols : ℕ)
  | homologySmithSourceEntryMismatch (row col : ℕ) (expected actual : ℤ)
  | homologyBindingBudgetExceeded (requested max : ℕ)
  | homologyDecompositionInvariantLost (field : String)
  | homologyDecompositionCancelled (phase : String)
      (completedBindingItems plannedBindingItems : ℕ)
  | homologyGeneratorOutputBudgetExceeded (requested max : ℕ)
  | homologyGeneratorInvariantLost (field : String)
  | homologyGeneratorArithmeticOverflow (stage : HomologyGeneratorStage) (row col term : ℕ)
  | homologyGeneratorVerificationMismatch (stage : HomologyGeneratorStage) (row col : ℕ)
      (expected actual : ℤ)
  | homologyGeneratorCancelled (phase : String) (completedWorkItems plannedWorkItems
      completedScalarOperations plannedScalarOperations : ℕ)
  | homologyCocycleOutputBudgetExceeded (requested max : ℕ)
  | homologyCocycleInvariantLost (field : String)
  | homologyCocycleArithmeticOverflow (stage : HomologyCocycleStage) (row col term : ℕ)
  | homologyCocycleVerificationMismatch (stage : HomologyCocycleStage) (row col : ℕ)
      (expected actual : ℤ)
  | homologyCocycleCancelled (phase : String) (completedWorkItems plannedWorkItems
      completedScalarOperations plannedScalarOperations : ℕ)
  | homologyClassBindingMismatch (field : String)
  | homologyClassCoefficientArityLost (expected actual : ℕ)
  | homologyClassOutputBudgetExceeded (requested max : ℕ)
  | homologyClassInvariantLost (field : String)
  | homologyClassNotCycle (row : ℕ) (actual : ℤ)
  | homologyClassArithmeticOverflow (stage : HomologyClassStage) (row term : ℕ)
  | homologyClassVerificationMismatch (stage : HomologyClassStage) (row : ℕ)
      (expected actual : ℤ)
  | homologyClassCancelled (phase : String) (completedWorkItems plannedWorkItems
      completedScalarOperations plannedScalarOperations : ℕ)
  deriving DecidableEq

/-- Exact matrix work inside of the homology. -/
def exact {α : Type} (x : Except IntegralTopologyError α) : Polled HomologyError α :=
  unpolled (x.mapError .algebra)

namespace VerifiedTerminalRelativeKernelTransport

variable (self : VerifiedTerminalRelativeKernelTransport)

def chainExtent : ℕ := self.outgoing.matrix.cols

def outgoingRank : ℕ := self.outgoingSmith.rank

def kernelDimension : ℕ := self.kernelImage.rows

end VerifiedTerminalRelativeKernelTransport

structure VerifiedTerminalRelativeHomology where
  transport : VerifiedTerminalRelativeKernelTransport
  imageSmith : VerifiedSmithNormalForm
  torsionStart : ℕ
  bindingItems : ℕ
  retainedEntries : ℕ

namespace VerifiedTerminalRelativeHomology

variable (self : VerifiedTerminalRelativeHomology)

def cycleRank : ℕ := self.transport.kernelDimension

def boundaryRank : ℕ := self.imageSmith.rank

def freeRank : ℕ := self.cycleRank - self.boundaryRank

def torsionInvariantFactors : List ℤ := self.imageSmith.invariantFactors.drop self.torsionStart

end VerifiedTerminalRelativeHomology

section Decomposition

variable (machine : Machine) (checkpoint : Checkpoint) (bindingItems : ℕ)

def retainedTerminalRelativeHomologyEntries (transport : VerifiedTerminalRelativeKernelTransport)
    (imageSmith : VerifiedSmithNormalForm) : Except IntegralTopologyError ℕ := do
  let transportEntries ← machine.checkedTotal "kernel-coordinate retained entries"
    transport.outgoing.matrix.entries.length
    [transport.outgoing.sourceBasis.length, transport.outgoing.targetBasis.length,
      transport.incoming.matrix.entries.length, transport.incoming.sourceBasis.length,
      transport.incoming.targetBasis.length, transport.outgoingSmith.source.entries.length,
      transport.outgoingSmith.witness.diagonal.entries.length,
      transport.outgoingSmith.witness.left.entries.length,
      transport.outgoingSmith.witness.leftInverse.entries.length,
      transport.outgoingSmith.witness.right.entries.length,
      transport.outgoingSmith.witness.rightInverse.entries.length,
      transport.outgoingSmith.invariantFactors.length, transport.kernelImage.entries.length]
  machine.checkedTotal "terminal-relative homology retained entries" transportEntries
    [imageSmith.source.entries.length, imageSmith.witness.diagonal.entries.length,
      imageSmith.witness.left.entries.length, imageSmith.witness.leftInverse.entries.length,
      imageSmith.witness.right.entries.length, imageSmith.witness.rightInverse.entries.length,
      imageSmith.invariantFactors.length]

def pollHomologyDecomposition (phase : String) (completed : ℕ) : Polled HomologyError Unit :=
  poll checkpoint phase (.homologyDecompositionCancelled phase completed bindingItems)

/-- Compare the lower image with the source of its Smith form entry by entry. -/
def bindImageSource (lower source : ExactIntegerMatrix) : Polled HomologyError ℕ :=
  ((lower.entries.zip source.entries).zipIdx).foldlM (fun completed entry => do
    pollHomologyDecomposition checkpoint bindingItems "terminal-relative homology source binding"
      completed
    refuseIf (entry.1.1 ≠ entry.1.2)
      (.homologySmithSourceEntryMismatch (entry.2 / max lower.cols 1) (entry.2 % max lower.cols 1)
        entry.1.1 entry.1.2)
    pure (completed + 1)) 0

/-- The first factor above one, with the count of the inspected factors. -/
def splitFactors (factors : List ℤ) (completed : ℕ) : Polled HomologyError (ℕ × ℕ) :=
  factors.zipIdx.foldlM (fun state entry => do
    pollHomologyDecomposition checkpoint bindingItems
      "terminal-relative homology invariant factors" state.2
    refuseIf (entry.1 ≤ 0)
      (.homologyDecompositionInvariantLost "nonpositive verified invariant factor")
    pure (if entry.1 > 1 ∧ state.1 = factors.length then entry.2 else state.1, state.2 + 1))
    (factors.length, completed)

end Decomposition

/-- The free and torsion invariants of the homology. -/
def verifyTerminalRelativeHomologyWithCheckpoint (machine : Machine)
    (transport : VerifiedTerminalRelativeKernelTransport) (imageSmith : VerifiedSmithNormalForm)
    (budget : HomologyDecompositionBudget) (checkpoint : Checkpoint) :
    Polled HomologyError VerifiedTerminalRelativeHomology := do
  let lower := transport.kernelImage
  let source := imageSmith.source
  refuseIf (source.rows ≠ lower.rows ∨ source.cols ≠ lower.cols)
    (.homologySmithSourceShapeMismatch lower.rows lower.cols source.rows source.cols)
  refuseIf (imageSmith.rank > lower.rows ∨ imageSmith.rank ≠ imageSmith.invariantFactors.length)
    (.homologyDecompositionInvariantLost "lower-image Smith rank")
  let bindingItems ← exact (machine.checkedExtent
    (lower.entries.length + imageSmith.invariantFactors.length)
    "terminal-relative homology binding items")
  refuseIf (bindingItems > budget.maxBindingItems)
    (.homologyBindingBudgetExceeded bindingItems budget.maxBindingItems)
  let retainedEntries ←
    exact (retainedTerminalRelativeHomologyEntries machine transport imageSmith)
  refuseIf (retainedEntries > budget.maxRetainedEntries)
    (.algebra (.retainedEntryBudgetExceeded retainedEntries budget.maxRetainedEntries))
  pollHomologyDecomposition checkpoint bindingItems "terminal-relative homology preflight" 0
  let completed ← bindImageSource checkpoint bindingItems lower source
  let (torsionStart, completed) ←
    splitFactors checkpoint bindingItems imageSmith.invariantFactors completed
  pollHomologyDecomposition checkpoint bindingItems "terminal-relative homology finalize" completed
  pure ⟨transport, imageSmith, torsionStart, completed, retainedEntries⟩

section Factors

/-- What is zero from its first zero on has its non-zero values first. -/
theorem filter_nonzero {f : ℕ → ℤ} {k : ℕ}
    (hzeros : ∀ i j, i ≤ j → j < k → f i = 0 → f j = 0) :
    ∃ r ≤ k, ((List.range k).map f).filter (· ≠ 0) = (List.range r).map f ∧
      ∀ i, r ≤ i → i < k → f i = 0 := by
  induction k with
  | zero => exact ⟨0, le_rfl, rfl, fun i _ hi => absurd hi (Nat.not_lt_zero i)⟩
  | succ k ih =>
    obtain ⟨r, hr, hfilter, hrest⟩ := ih fun i j hij hj => hzeros i j hij (by omega)
    rw [List.range_succ, List.map_append, List.filter_append, hfilter]
    by_cases hk : f k = 0
    · refine ⟨r, by omega, by simp [hk], ?_⟩
      intro i hi hlt
      rcases Nat.lt_or_eq_of_le (Nat.lt_succ_iff.1 hlt) with hlt | rfl
      · exact hrest i hi hlt
      · exact hk
    · have hrk : r = k := by
        by_contra hne
        exact hk (hzeros r k hr (by omega) (hrest r le_rfl (by omega)))
      subst hrk
      refine ⟨r + 1, le_rfl, by simp [hk, List.range_succ], ?_⟩
      intro i hi hlt
      omega

/-- The factors of a canonical diagonal are its first entries; the others vanish. -/
theorem factorsOf_eq {diagonal : ExactIntegerMatrix} (h : Canonical diagonal) :
    (factorsOf diagonal).length ≤ min diagonal.rows diagonal.cols ∧
      factorsOf diagonal = (List.range (factorsOf diagonal).length).map
        (fun i => diagonal.value i i) ∧
      ∀ i, (factorsOf diagonal).length ≤ i → diagonal.value i i = 0 := by
  obtain ⟨r, hr, hfilter, hrest⟩ := filter_nonzero (f := fun i => diagonal.value i i) h.zerosLast
  have hfactors : factorsOf diagonal = (List.range r).map fun i => diagonal.value i i := hfilter
  have hlength : (factorsOf diagonal).length = r := by
    rw [hfactors, List.length_map, List.length_range]
  rw [hlength]
  refine ⟨hr, hfactors, ?_⟩
  intro i hi
  rcases Nat.lt_or_ge i (min diagonal.rows diagonal.cols) with hlt | hge
  · exact hrest i hi hlt
  · exact ExactIntegerMatrix.value_of_not_lt (by omega)

/-- The factors below the split are units, and the one at the split is none. -/
structure Splits (factors : List ℤ) (passed : List (ℤ × ℕ)) (start : ℕ) : Prop where
  units : ∀ entry ∈ passed, entry.2 < start → entry.1 = 1
  torsion : start = factors.length ∨ ∃ d, (d, start) ∈ passed ∧ 1 < d

theorem Splits.step {factors : List ℤ} {passed later : List (ℤ × ℕ)} {entry : ℤ × ℕ} {start : ℕ}
    (hentries : passed ++ entry :: later = factors.zipIdx) (hpos : 0 < entry.1)
    (h : Splits factors passed start) :
    Splits factors (passed ++ [entry])
      (if entry.1 > 1 ∧ start = factors.length then entry.2 else start) := by
  have hindex : ∀ e ∈ passed ++ entry :: later, e.2 < factors.length := by
    intro e he
    rw [hentries] at he
    exact (List.getElem?_eq_some_iff.1 (List.mem_zipIdx_iff_getElem?.1 he)).1
  have hsorted : (passed ++ entry :: later).Pairwise fun e e' => e.2 < e'.2 := by
    rw [hentries, ← List.pairwise_map, List.zipIdx_map_snd]
    exact List.pairwise_lt_range'
  have hbefore : ∀ e ∈ passed, e.2 < entry.2 :=
    fun e he => (List.pairwise_append.1 hsorted).2.2 e he entry List.mem_cons_self
  split_ifs with hsplit
  · constructor
    · intro e he hlt
      rcases List.mem_append.1 he with he | he
      · exact h.units e he (hsplit.2 ▸ hindex e (List.mem_append_left _ he))
      · rw [List.mem_singleton.1 he] at hlt
        exact absurd hlt (lt_irrefl _)
    · exact Or.inr ⟨entry.1, List.mem_append_right _ List.mem_cons_self, hsplit.1⟩
  · constructor
    · intro e he hlt
      rcases List.mem_append.1 he with he | he
      · exact h.units e he hlt
      · rw [List.mem_singleton.1 he] at hlt ⊢
        rcases h.torsion with hstart | ⟨d, hd, -⟩
        · have : ¬ entry.1 > 1 := fun hone => hsplit ⟨hone, hstart⟩
          omega
        · exact absurd (hbefore _ hd) (by dsimp only; omega)
    · exact h.torsion.imp_right fun ⟨d, hd, hone⟩ => ⟨d, List.mem_append_left _ hd, hone⟩

end Factors

section Report

variable {machine : Machine} {checkpoint : Checkpoint} {bindingItems : ℕ}

/-- Any refusal of the report is admitted. -/
def AnyHomologyRefusal : HomologyError → Prop := fun _ => True

theorem exact_any {α : Type} (x : Except IntegralTopologyError α) :
    Ensures AnyHomologyRefusal (fun _ => True) (exact x) := by
  apply Ensures.unpolled
  cases x <;> trivial

theorem bindImageSource_ensures {lower source : ExactIntegerMatrix}
    (hrows : source.rows = lower.rows) (hcols : source.cols = lower.cols) :
    Ensures AnyHomologyRefusal (fun _ => source = lower)
      (bindImageSource checkpoint bindingItems lower source) := by
  unfold bindImageSource
  apply Ensures.imp
  · apply Ensures.foldlM_forall (P := fun entry : (ℤ × ℤ) × ℕ => entry.1.1 = entry.1.2)
    intro entry completed
    apply Ensures.bind (Ensures.poll trivial)
    intro _ _
    apply Ensures.bind (Ensures.refuseIf fun _ => trivial)
    intro _ hequal
    exact Ensures.pure (not_not.1 hequal)
  · intro _ hall
    exact eq_of_zip hrows hcols hall

theorem splitFactors_ensures (factors : List ℤ) (completed : ℕ) :
    Ensures AnyHomologyRefusal (fun state => Splits factors factors.zipIdx state.1)
      (splitFactors checkpoint bindingItems factors completed) := by
  unfold splitFactors
  apply Ensures.foldlM (I := fun passed (state : ℕ × ℕ) => Splits factors passed state.1)
  · exact ⟨fun _ h => absurd h List.not_mem_nil, Or.inl rfl⟩
  intro passed entry later state hentries hstate
  apply Ensures.bind (Ensures.poll trivial)
  intro _ _
  apply Ensures.bind (Ensures.refuseIf fun _ => trivial)
  intro _ hpos
  exact Ensures.pure (hstate.step hentries (not_le.1 hpos))

/-- What a report returns. -/
structure Reports (transport : VerifiedTerminalRelativeKernelTransport)
    (imageSmith : VerifiedSmithNormalForm) (report : VerifiedTerminalRelativeHomology) : Prop where
  transport_eq : report.transport = transport
  imageSmith_eq : report.imageSmith = imageSmith
  source : imageSmith.source = transport.kernelImage
  splits : Splits imageSmith.invariantFactors imageSmith.invariantFactors.zipIdx report.torsionStart

theorem report_ensures (machine : Machine) (transport : VerifiedTerminalRelativeKernelTransport)
    (imageSmith : VerifiedSmithNormalForm) (budget : HomologyDecompositionBudget)
    (checkpoint : Checkpoint) :
    Ensures AnyHomologyRefusal (Reports transport imageSmith)
      (verifyTerminalRelativeHomologyWithCheckpoint machine transport imageSmith budget
        checkpoint) := by
  unfold verifyTerminalRelativeHomologyWithCheckpoint
  apply Ensures.bind (Ensures.refuseIf fun _ => trivial)
  intro _ hshape
  rw [not_or, not_not, not_not] at hshape
  apply Ensures.bind (Ensures.refuseIf fun _ => trivial)
  intro _ _
  apply Ensures.bind (exact_any _)
  intro bindingItems _
  apply Ensures.bind (Ensures.refuseIf fun _ => trivial)
  intro _ _
  apply Ensures.bind (exact_any _)
  intro retainedEntries _
  apply Ensures.bind (Ensures.refuseIf fun _ => trivial)
  intro _ _
  apply Ensures.bind (Ensures.poll trivial)
  intro _ _
  apply Ensures.bind (bindImageSource_ensures hshape.1 hshape.2)
  intro completed hsource
  apply Ensures.bind (splitFactors_ensures _ _)
  rintro ⟨torsionStart, completed⟩ hsplits
  apply Ensures.bind (Ensures.poll trivial)
  intro _ _
  exact Ensures.pure ⟨rfl, rfl, hsource, hsplits⟩

end Report

section Presented

open Matrix

variable {smith imageSmith : VerifiedSmithNormalForm} {incoming : ExactIntegerMatrix}

/-- The columns from the rank on are mapped to zero. -/
theorem column_eq_zero (h : SmithFacts smith) {i : Fin smith.source.rows}
    {j : Fin smith.source.cols} (hj : smith.rank ≤ j.val) :
    (smith.source.toMatrix smith.source.rows smith.source.cols *
      smith.witness.right.toMatrix smith.source.cols smith.source.cols) i j = 0 := by
  have hproduct : smith.source.toMatrix smith.source.rows smith.source.cols *
      smith.witness.right.toMatrix smith.source.cols smith.source.cols =
      smith.witness.leftInverse.toMatrix smith.source.rows smith.source.rows *
        rectDiagonal smith.source.rows smith.source.cols
          fun i => smith.witness.diagonal.value i i := by
    rw [← h.equations.canonical.toMatrix_eq h.shapes, ← h.equations.transforms.transform,
      Matrix.mul_assoc, ← Matrix.mul_assoc, h.equations.transforms.inverse_mul_left,
      Matrix.one_mul]
  rw [hproduct, Matrix.mul_apply]
  apply Finset.sum_eq_zero
  intro k _
  rw [rectDiagonal, Matrix.of_apply]
  split_ifs with heq
  · rw [heq, (factorsOf_eq h.equations.canonical).2.2 j (h.rank ▸ hj), mul_zero]
  · exact mul_zero _

/-- The coordinates of a cycle before the rank vanish. -/
theorem cycle_coordinate_eq_zero (h : SmithFacts smith) {x : Fin smith.source.cols → ℤ}
    (hx : smith.source.toMatrix smith.source.rows smith.source.cols *ᵥ x = 0)
    {i : Fin smith.source.cols} (hi : i.val < smith.rank) :
    (smith.witness.rightInverse.toMatrix smith.source.cols smith.source.cols *ᵥ x) i = 0 := by
  have hzero : smith.source.toMatrix smith.source.rows smith.source.cols *
      replicateCol (Fin 1) x = 0 := by
    ext row col
    exact congrFun hx row
  exact coordinate_eq_zero h hzero hi 0

/-- The kernel columns of one Smith form in the coordinates of another. -/
def presentationColumns (smith imageSmith : VerifiedSmithNormalForm) {n q : ℕ}
    (hn : smith.rank + q = n) : Matrix (Fin n) (Fin q) ℤ :=
  (smith.witness.right.toMatrix n n).submatrix id (later hn) *
    imageSmith.witness.leftInverse.toMatrix q q

/-- The coordinates of a cycle in those columns. -/
def presentationRows (smith imageSmith : VerifiedSmithNormalForm) {n q : ℕ}
    (hn : smith.rank + q = n) : Matrix (Fin q) (Fin n) ℤ :=
  imageSmith.witness.left.toMatrix q q *
    (smith.witness.rightInverse.toMatrix n n).submatrix (later hn) id

/-- Two Smith forms, one of a boundary and one of the image in its kernel coordinates,
present the homology. -/
theorem presentation {outgoing : ExactIntegerMatrix} {m n p q : ℕ} (h : SmithFacts smith)
    (himage : SmithFacts imageSmith) (hsource : smith.source = outgoing)
    (hm : outgoing.rows = m) (hcols : outgoing.cols = n) (hq : imageSmith.source.rows = q)
    (hp : imageSmith.source.cols = p) (hn : smith.rank + q = n)
    (htransported : Transported smith incoming
      (fun row col => row < smith.source.cols ∧ col < incoming.cols) imageSmith.source) :
    Presentation (outgoing.toMatrix m n) (incoming.toMatrix n p)
      (presentationRows smith imageSmith hn) (presentationColumns smith imageSmith hn)
      (imageSmith.witness.right.toMatrix p p)
      fun i => imageSmith.witness.diagonal.value i i := by
  subst hsource hm hcols hq hp
  have hcoordinates : ∀ (i : Fin smith.source.cols) (j : Fin imageSmith.source.cols),
      (smith.witness.rightInverse.toMatrix smith.source.cols smith.source.cols *
        incoming.toMatrix smith.source.cols imageSmith.source.cols) i j =
        dot smith.witness.rightInverse incoming i j :=
    fun i j => toMatrix_mul_apply _ _ h.shapes.rightInverse.2 i j
  have hlower : (smith.witness.rightInverse.toMatrix smith.source.cols smith.source.cols *
      incoming.toMatrix smith.source.cols imageSmith.source.cols).submatrix (later hn) id =
      imageSmith.source.toMatrix imageSmith.source.rows imageSmith.source.cols := by
    ext i j
    have hplace := htransported.after (later hn i) j ⟨(later hn i).2, htransported.cols ▸ j.2⟩
      (Nat.le_add_right _ _)
    rw [val_later, Nat.add_sub_cancel_left] at hplace
    rw [Matrix.submatrix_apply, hcoordinates, ExactIntegerMatrix.toMatrix_apply, hplace]
    rfl
  refine Presentation.of_kernel hn h.equations.transforms.inverse_mul_right
    h.equations.transforms.right_mul_inverse ?_ ?_ ?_
    himage.equations.transforms.left_mul_inverse himage.equations.transforms.inverse_mul_left
    ⟨_, himage.equations.transforms.right_mul_inverse⟩ ?_
  · intro i j hj
    exact column_eq_zero h hj
  · intro x hx i hi
    exact cycle_coordinate_eq_zero h hx hi
  · intro i hi j
    rw [hcoordinates]
    exact htransported.before i j ⟨i.2, htransported.cols ▸ j.2⟩ hi
  · rw [hlower, himage.equations.transforms.transform,
      himage.equations.canonical.toMatrix_eq himage.shapes]

/-- The factors of a report are its diagonal, units before the torsion. -/
structure Divided (δ : ℕ → ℤ) (report : VerifiedTerminalRelativeHomology) : Prop where
  start : report.torsionStart + report.torsionInvariantFactors.length = report.boundaryRank
  torsion : report.torsionInvariantFactors =
    (List.range report.torsionInvariantFactors.length).map fun j => δ (report.torsionStart + j)
  units : ∀ i < report.torsionStart, δ i = 1
  proper : report.torsionStart = report.boundaryRank ∨ 1 < δ report.torsionStart

theorem divided {transport : VerifiedTerminalRelativeKernelTransport}
    {report : VerifiedTerminalRelativeHomology} (h : SmithFacts imageSmith)
    (hfactors : imageSmith.invariantFactors = factorsOf imageSmith.witness.diagonal)
    (hreport : Reports transport imageSmith report) :
    Divided (fun i => imageSmith.witness.diagonal.value i i) report := by
  have hrank : report.boundaryRank = imageSmith.rank := by
    rw [VerifiedTerminalRelativeHomology.boundaryRank, hreport.imageSmith_eq]
  have heq : imageSmith.invariantFactors =
      (List.range imageSmith.rank).map fun i => imageSmith.witness.diagonal.value i i := by
    rw [hfactors, h.rank]
    exact (factorsOf_eq h.equations.canonical).2.1
  have hlength : imageSmith.invariantFactors.length = imageSmith.rank := by
    rw [heq, List.length_map, List.length_range]
  have hentry : ∀ {d i}, (d, i) ∈ imageSmith.invariantFactors.zipIdx ↔
      i < imageSmith.rank ∧ imageSmith.witness.diagonal.value i i = d := by
    intro d i
    rw [List.mem_zipIdx_iff_getElem?, heq]
    simp [List.getElem?_eq_some_iff]
  have hstart : report.torsionStart ≤ imageSmith.rank := by
    rcases hreport.splits.torsion with hstart | ⟨d, hd, -⟩
    · exact (hstart.trans hlength).le
    · exact (hentry.1 hd).1.le
  have hdrop : report.torsionInvariantFactors =
      (List.range (imageSmith.rank - report.torsionStart)).map
        fun j => imageSmith.witness.diagonal.value (report.torsionStart + j)
          (report.torsionStart + j) := by
    obtain ⟨k, hk⟩ := Nat.exists_eq_add_of_le hstart
    rw [VerifiedTerminalRelativeHomology.torsionInvariantFactors, hreport.imageSmith_eq, heq, hk,
      List.range_add, List.map_append, List.drop_left' (by simp), Nat.add_sub_cancel_left,
      List.map_map]
    rfl
  have htorsion : report.torsionInvariantFactors.length =
      imageSmith.rank - report.torsionStart := by
    rw [hdrop, List.length_map, List.length_range]
  refine ⟨by omega, by rw [htorsion]; exact hdrop, ?_, ?_⟩
  · intro i hi
    exact hreport.splits.units _ (hentry.2 ⟨by omega, rfl⟩) hi
  · rw [hrank]
    rcases hreport.splits.torsion with hstart | ⟨d, hd, hone⟩
    · exact Or.inl (hstart.trans hlength)
    · obtain ⟨-, rfl⟩ := hentry.1 hd
      exact Or.inr hone

/-- Torsion factors are above one and divide each other in order. -/
theorem Divided.torsion_chain {report : VerifiedTerminalRelativeHomology}
    (h : SmithFacts imageSmith)
    (hdivided : Divided (fun i => imageSmith.witness.diagonal.value i i) report)
    (hrank : report.boundaryRank = imageSmith.rank) :
    (∀ d ∈ report.torsionInvariantFactors, 1 < d) ∧
      report.torsionInvariantFactors.Pairwise (· ∣ ·) := by
  have hle := (factorsOf_eq h.equations.canonical).1
  have hchain := h.equations.canonical.divisorChain h.shapes
  rw [← h.shapes.diagonal.1, ← h.shapes.diagonal.2] at hchain
  have hlength := hdivided.start
  rw [hrank, h.rank] at hlength
  have hdvd : ∀ i j, i ≤ j → j < report.torsionInvariantFactors.length →
      imageSmith.witness.diagonal.value (report.torsionStart + i) (report.torsionStart + i) ∣
        imageSmith.witness.diagonal.value (report.torsionStart + j) (report.torsionStart + j) :=
    fun i j hij hj => hchain.dvd _ _ (by omega) (by omega)
  constructor
  · intro d hd
    rw [hdivided.torsion] at hd
    obtain ⟨j, hj, rfl⟩ := List.mem_map.1 hd
    have hlt := List.mem_range.1 hj
    have hone : 1 < imageSmith.witness.diagonal.value report.torsionStart report.torsionStart := by
      apply hdivided.proper.resolve_left
      rw [hrank, h.rank]
      omega
    have hne := (diagonal_ne_zero h.equations.canonical
      (show report.torsionStart + j < _ by omega)).2
    have hnonneg := h.equations.canonical.nonneg (report.torsionStart + j) (by omega)
    exact hone.trans_le (Int.le_of_dvd (by omega) (hdvd 0 j (Nat.zero_le j) hlt))
  · rw [hdivided.torsion, List.pairwise_map]
    apply List.pairwise_lt_range.imp_of_mem
    intro i j _ hj hij
    exact hdvd i j hij.le (List.mem_range.1 hj)

/-- What holds of a report that returned. -/
structure Bound (report : VerifiedTerminalRelativeHomology) : Prop where
  smith : SmithFacts report.transport.outgoingSmith
  image : SmithFacts report.imageSmith
  outgoingSource : report.transport.outgoingSmith.source = report.transport.outgoing.matrix
  basis : report.transport.outgoing.matrix.cols = report.transport.outgoing.sourceBasis.length
  inner : report.transport.outgoing.matrix.cols = report.transport.incoming.matrix.rows
  imageSource : report.imageSmith.source = report.transport.kernelImage
  kernelRows : report.transport.outgoingRank + report.cycleRank =
    report.transport.outgoing.matrix.cols
  transported : Transported report.transport.outgoingSmith report.transport.incoming.matrix
    (fun row col => row < report.transport.outgoingSmith.source.cols ∧
      col < report.transport.incoming.matrix.cols) report.imageSmith.source
  factors : report.imageSmith.invariantFactors = factorsOf report.imageSmith.witness.diagonal
  divided : Divided (fun i => report.imageSmith.witness.diagonal.value i i) report

theorem bound_of_returned {machine machine' verifier verifier' : Machine}
    {source source' : ExactIntegerMatrix} {witness witness' : SmithNormalFormWitness}
    {algebraBudget algebraBudget' : ExactAlgebraBudget}
    {outgoing boundary : TerminalRelativeBoundaryMatrix} {kernelBudget : KernelCoordinateBudget}
    {budget : HomologyDecompositionBudget} {checkpoint checkpoint' : Checkpoint}
    {seen seen' last last' : List String} {transport : VerifiedTerminalRelativeKernelTransport}
    {report : VerifiedTerminalRelativeHomology}
    (hsmith : verifier.verifySmithNormalForm source witness algebraBudget = .ok smith)
    (htransport : verifyTerminalRelativeKernelTransportWithCheckpoint machine outgoing boundary
      smith kernelBudget checkpoint seen = .ok (transport, last))
    (himage : verifier'.verifySmithNormalForm source' witness' algebraBudget' = .ok imageSmith)
    (hreport : verifyTerminalRelativeHomologyWithCheckpoint machine' transport imageSmith budget
      checkpoint' seen' = .ok (report, last')) :
    Bound report ∧ report.transport.outgoing = outgoing ∧
      report.transport.incoming = boundary := by
  have hfacts := smithFacts_of_verified hsmith
  have hfacts' := smithFacts_of_verified himage
  have hfactors : imageSmith.invariantFactors = factorsOf imageSmith.witness.diagonal := by
    obtain ⟨-, -, rfl, -, hfactors, -⟩ :=
      (verifySmithNormalForm_settles verifier' source' witness' algebraBudget').of_ok himage
    exact hfactors
  obtain ⟨rfl, rfl, rfl, hsource, hbasis, hinner, hrank, hkernel⟩ :=
    (transport_ensures hfacts (fun _ => trivial) kernelBudget).of_ok htransport
  have hreports := (report_ensures machine' transport imageSmith budget checkpoint').of_ok hreport
  have hdivided := divided hfacts' hfactors hreports
  obtain ⟨rfl, rfl, himageSource, -⟩ := hreports
  refine ⟨⟨hfacts, hfacts', hsource, hbasis, hsource ▸ hinner, himageSource, ?_,
    himageSource ▸ hkernel, hfactors, hdivided⟩, rfl, rfl⟩
  have hrows := hkernel.rows
  rw [← hsource]
  change report.transport.outgoingSmith.rank + report.transport.kernelImage.rows = _
  omega

theorem Bound.presented {report : VerifiedTerminalRelativeHomology} (h : Bound report) :
    Presentation (report.transport.outgoing.matrix.toMatrix
        report.transport.outgoing.matrix.rows report.transport.outgoing.matrix.cols)
      (report.transport.incoming.matrix.toMatrix report.transport.outgoing.matrix.cols
        report.transport.incoming.matrix.cols)
      (presentationRows report.transport.outgoingSmith report.imageSmith h.kernelRows)
      (presentationColumns report.transport.outgoingSmith report.imageSmith h.kernelRows)
      (report.imageSmith.witness.right.toMatrix report.transport.incoming.matrix.cols
        report.transport.incoming.matrix.cols)
      fun i => report.imageSmith.witness.diagonal.value i i :=
  presentation h.smith h.image h.outgoingSource rfl rfl
    (congrArg ExactIntegerMatrix.rows h.imageSource) h.transported.cols h.kernelRows h.transported

/-- The places of a presentation are units, torsion and free. -/
theorem Bound.extents {report : VerifiedTerminalRelativeHomology} (h : Bound report) :
    report.cycleRank =
        report.torsionStart + report.torsionInvariantFactors.length + report.freeRank ∧
      report.torsionStart + report.torsionInvariantFactors.length ≤
        report.transport.incoming.matrix.cols ∧
      ∀ i, report.torsionStart + report.torsionInvariantFactors.length ≤ i →
        report.imageSmith.witness.diagonal.value i i = 0 := by
  obtain ⟨hle, -, hzeros⟩ := factorsOf_eq h.image.equations.canonical
  have hstart : report.torsionStart + report.torsionInvariantFactors.length =
      (factorsOf report.imageSmith.witness.diagonal).length := h.divided.start.trans h.image.rank
  rw [h.image.shapes.diagonal.1, h.image.shapes.diagonal.2, h.transported.cols] at hle
  have hrows : report.cycleRank = report.imageSmith.source.rows :=
    (congrArg ExactIntegerMatrix.rows h.imageSource).symm
  have hfree : report.freeRank = report.cycleRank - report.boundaryRank := rfl
  have hrank := h.divided.start
  refine ⟨by omega, by omega, fun i hi => hzeros i (by omega)⟩

theorem Bound.splits {report : VerifiedTerminalRelativeHomology} (h : Bound report) :
    Nonempty (Homology
        (report.transport.outgoing.matrix.toMatrix report.transport.outgoing.matrix.rows
          report.transport.outgoing.matrix.cols)
        (report.transport.incoming.matrix.toMatrix report.transport.outgoing.matrix.cols
          report.transport.incoming.matrix.cols) ≃+
      (∀ j, ZMod (report.torsionInvariantFactors.get j).natAbs) × (Fin report.freeRank → ℤ)) := by
  obtain ⟨hrows, hcols, hzeros⟩ := h.extents
  apply h.presented.homology_splits hrows hcols
  · intro i hi
    rw [h.divided.units i hi]
    exact isUnit_one
  · intro j
    have hj := List.getElem_of_eq h.divided.torsion j.2
    rw [List.getElem_map, List.getElem_range] at hj
    exact hj
  · exact hzeros

end Presented

/-- Two loops at a vertex of the relative subcomplex. -/
def loopEdges : TerminalRelativeBoundaryMatrix :=
  ⟨[], "a", "core", 1, some 0, [⟨1, 0⟩, ⟨1, 1⟩], [], ⟨0, 2, [], rfl⟩, 16⟩

/-- Two faces along the sum and the difference of the loops. -/
def loopFaces : TerminalRelativeBoundaryMatrix :=
  ⟨[], "a", "core", 2, some 1, [⟨2, 0⟩, ⟨2, 1⟩], [⟨1, 0⟩, ⟨1, 1⟩], ⟨2, 2, [1, 1, 1, -1], rfl⟩, 16⟩

def loopSmith : VerifiedSmithNormalForm where
  source := loopEdges.matrix
  witness := ⟨⟨0, 2, [], rfl⟩, ⟨0, 0, [], rfl⟩, ⟨0, 0, [], rfl⟩, ⟨2, 2, [1, 0, 0, 1], rfl⟩,
    ⟨2, 2, [1, 0, 0, 1], rfl⟩⟩
  rank := 0
  invariantFactors := []
  scalarOperations := 16

def loopImageSmith : VerifiedSmithNormalForm where
  source := loopFaces.matrix
  witness := ⟨⟨2, 2, [1, 0, 0, 2], rfl⟩, ⟨2, 2, [1, 0, 1, -1], rfl⟩, ⟨2, 2, [1, 0, 1, -1], rfl⟩,
    diskSmith.witness.right, diskSmith.witness.rightInverse⟩
  rank := 2
  invariantFactors := [1, 2]
  scalarOperations := 48

def loopTransport : VerifiedTerminalRelativeKernelTransport :=
  ⟨loopEdges, loopFaces, loopSmith, loopFaces.matrix, 2, 8⟩

def loopReport : VerifiedTerminalRelativeHomology := ⟨loopTransport, loopImageSmith, 1, 6, 48⟩

theorem loopSmith_verified : Machine.unbounded.verifySmithNormalForm loopSmith.source
    loopSmith.witness .unlimited = .ok loopSmith := by
  rfl

theorem loopImageSmith_verified : Machine.unbounded.verifySmithNormalForm loopImageSmith.source
    loopImageSmith.witness .unlimited = .ok loopImageSmith := by
  rfl

theorem loopTransport_returned :
    (verifyTerminalRelativeKernelTransportWithCheckpoint .unbounded loopEdges loopFaces loopSmith
      ⟨2, 4, 22, 2, 8⟩ (fun _ _ => true) []).map Prod.fst = .ok loopTransport := by
  rfl

theorem loopReport_returned :
    (verifyTerminalRelativeHomologyWithCheckpoint .unbounded loopTransport loopImageSmith
      ⟨6, 48⟩ (fun _ _ => true) []).map Prod.fst = .ok loopReport := by
  rfl

end FrankenSim.Relative
