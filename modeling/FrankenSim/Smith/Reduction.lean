import FrankenSim.Smith.Elementary
import FrankenSim.Library.PivotTables

/-!
# The reduction ends in a canonical diagonal

Every state of a run is reached by elementary operations, which keep the equations of
the transforms. A pass of the inner loop lowers the weight of the pivot or finishes it,
so the loop ends for every matrix, and the checks for lost invariants never fire.
-/
namespace FrankenSim.Smith

open Library

namespace SmithConstructionState

/-- One inspection or one elementary operation on lines inside the matrix. -/
inductive Elementary (machine : Machine) (s : SmithConstructionState) :
    SmithConstructionState → Prop
  | inspect {s' : SmithConstructionState} {row col : ℕ} {value : ℤ} (hrow : row < s.diagonal.rows)
      (hcol : col < s.diagonal.cols) (h : s.inspect machine row col = .ok (value, s')) :
      Elementary machine s s'
  | swapRows {s' : SmithConstructionState} {first second : ℕ} (hf : first < s.diagonal.rows)
      (hs : second < s.diagonal.rows) (h : s.swapRows machine first second = .ok s') :
      Elementary machine s s'
  | swapColumns {s' : SmithConstructionState} {first second : ℕ} (hf : first < s.diagonal.cols)
      (hs : second < s.diagonal.cols) (h : s.swapColumns machine first second = .ok s') :
      Elementary machine s s'
  | subtractRowMultiple {s' : SmithConstructionState} {target source : ℕ} {quotient : ℤ}
      (ht : target < s.diagonal.rows) (hs : source < s.diagonal.rows) (hne : target ≠ source)
      (h : s.subtractRowMultiple machine target source quotient = .ok s') :
      Elementary machine s s'
  | subtractColumnMultiple {s' : SmithConstructionState} {target source : ℕ} {quotient : ℤ}
      {stage : SmithConstructionStage} {phase : String} (ht : target < s.diagonal.cols)
      (hs : source < s.diagonal.cols) (hne : target ≠ source)
      (h : s.subtractColumnMultiple machine target source quotient stage phase = .ok s') :
      Elementary machine s s'
  | addRowForDivisibilityRepair {s' : SmithConstructionState} {target source : ℕ}
      (ht : target < s.diagonal.rows) (hs : source < s.diagonal.rows) (hne : target ≠ source)
      (h : s.addRowForDivisibilityRepair machine target source = .ok s') :
      Elementary machine s s'
  | normalizePivotSign {s' : SmithConstructionState} {pivot : ℕ} (hp : pivot < s.diagonal.rows)
      (h : s.normalizePivotSign machine pivot = .ok s') : Elementary machine s s'

/-- A run of elementary operations, in any order. -/
def Reaches (machine : Machine) : SmithConstructionState → SmithConstructionState → Prop :=
  Relation.ReflTransGen (Elementary machine)

end SmithConstructionState

namespace Trace

/-- The trace that holds every state and every number. -/
def any : Trace := ⟨fun _ => True, fun _ _ _ _ _ => True⟩

/-- The trace of a construction from the state before the first pivot. -/
def ofConstruction (machine : Machine) (source : ExactIntegerMatrix)
    (construction : SmithConstructionBudget) (verification : ExactAlgebraBudget) : Trace where
  reached s := ∃ start, machine.beginConstruction source construction verification = .ok start ∧
    SmithConstructionState.Reaches machine start s
  computed stage role row col value := ∃ start s,
    machine.beginConstruction source construction verification = .ok start ∧
    SmithConstructionState.Reaches machine start s ∧ s.Computes stage role row col value

/-- A trace holds what a run does from a state on. -/
structure Covers (trace : Trace) (machine : Machine) (s : SmithConstructionState) : Prop where
  reached : ∀ s', SmithConstructionState.Reaches machine s s' → trace.reached s'
  computed : ∀ s', SmithConstructionState.Reaches machine s s' → ∀ stage role row col value,
    s'.Computes stage role row col value → trace.computed stage role row col value

section Covers

variable {trace : Trace} {machine : Machine} {s s' : SmithConstructionState}

theorem Covers.after (h : trace.Covers machine s)
    (hreaches : SmithConstructionState.Reaches machine s s') : trace.Covers machine s' :=
  ⟨fun s'' hs => h.reached s'' (hreaches.trans hs),
    fun s'' hs => h.computed s'' (hreaches.trans hs)⟩

theorem Covers.here (h : trace.Covers machine s) : trace.reached s :=
  h.reached s Relation.ReflTransGen.refl

theorem Covers.number {stage : SmithConstructionStage} {role : MatrixRole} {row col : ℕ}
    {value : ℤ} (h : trace.Covers machine s) (hvalue : s.Computes stage role row col value) :
    trace.computed stage role row col value :=
  h.computed s Relation.ReflTransGen.refl _ _ _ _ _ hvalue

theorem covers_ofConstruction {source : ExactIntegerMatrix}
    {construction : SmithConstructionBudget} {verification : ExactAlgebraBudget}
    (h : machine.beginConstruction source construction verification = .ok s) :
    (ofConstruction machine source construction verification).Covers machine s :=
  ⟨fun _ hs => ⟨s, h, hs⟩, fun s' hs _ _ _ _ _ hvalue => ⟨s, s', h, hs, hvalue⟩⟩

end Covers

end Trace

namespace SmithConstructionState

section Runs

variable {machine : Machine} {construction : SmithConstructionBudget}
  {verification : ExactAlgebraBudget} {source : ExactIntegerMatrix} {trace : Trace}
  {rows cols : ℕ} {s : SmithConstructionState}

/-- What a successful elementary operation does to the matrices. -/
theorem Elementary.effect {s' : SmithConstructionState} (hs : Shaped rows cols construction s)
    (h : Elementary machine s s') : SameMatrices s s' ∨
      (∃ op : LineOperation, op.Valid rows ∧ RowEffect op s s') ∨
      ∃ op : LineOperation, op.Valid cols ∧ ColumnEffect op s s' := by
  cases h with
  | @inspect row col value hrow hcol h =>
    have hwithin : Within (ConstructionLimit machine construction .unlimited s.diagonal .any) _
        (s.inspect machine row col) := inspect_within hs.budget trivial hrow hcol
    exact Or.inl (hwithin.of_ok h).2
  | @swapRows first second hf hsecond h =>
    rw [hs.diagonal.1] at hf hsecond
    have hwithin : Within (ConstructionLimit machine construction .unlimited s.diagonal .any) _
        (s.swapRows machine first second) := swapRows_within hs trivial hf hsecond
    exact Or.inr (Or.inl ⟨.swap first second, ⟨hf, hsecond⟩, hwithin.of_ok h⟩)
  | @swapColumns first second hf hsecond h =>
    rw [hs.diagonal.2] at hf hsecond
    have hwithin : Within (ConstructionLimit machine construction .unlimited s.diagonal .any) _
        (s.swapColumns machine first second) := swapColumns_within hs trivial hf hsecond
    exact Or.inr (Or.inr ⟨.swap first second, ⟨hf, hsecond⟩, hwithin.of_ok h⟩)
  | @subtractRowMultiple target source quotient ht hsource hne h =>
    rw [hs.diagonal.1] at ht hsource
    have hwithin : Within (ConstructionLimit machine construction .unlimited s.diagonal .any) _
        (s.subtractRowMultiple machine target source quotient) :=
      subtractRowMultiple_within hs trivial (fun _ _ _ _ _ => trivial) ht hsource
    exact Or.inr (Or.inl ⟨.subtract target source quotient, ⟨ht, hsource, hne⟩, hwithin.of_ok h⟩)
  | @subtractColumnMultiple target source quotient stage phase ht hsource hne h =>
    rw [hs.diagonal.2] at ht hsource
    have hwithin : Within (ConstructionLimit machine construction .unlimited s.diagonal .any) _
        (s.subtractColumnMultiple machine target source quotient stage phase) :=
      subtractColumnMultiple_within hs trivial (fun _ _ _ _ _ => trivial) ht hsource
    exact Or.inr (Or.inr ⟨.subtract target source quotient, ⟨ht, hsource, hne⟩, hwithin.of_ok h⟩)
  | @addRowForDivisibilityRepair target source ht hsource hne h =>
    rw [hs.diagonal.1] at ht hsource
    have hwithin : Within (ConstructionLimit machine construction .unlimited s.diagonal .any) _
        (s.addRowForDivisibilityRepair machine target source) :=
      addRowForDivisibilityRepair_within hs trivial (fun _ _ _ _ _ => trivial) ht hsource
    exact Or.inr (Or.inl ⟨.subtract target source (-1), ⟨ht, hsource, hne⟩, hwithin.of_ok h⟩)
  | @normalizePivotSign pivot hp h =>
    rw [hs.diagonal.1] at hp
    have hwithin : Within (ConstructionLimit machine construction .unlimited s.diagonal .any) _
        (s.normalizePivotSign machine pivot) :=
      normalizePivotSign_within hs trivial (fun _ _ _ _ _ => trivial) hp
    exact Or.inr (Or.inl ⟨.negate pivot, hp, hwithin.of_ok h⟩)

/-- An elementary operation keeps the extents and the equations of the transforms. -/
theorem Elementary.keeps {source : ExactIntegerMatrix} {s' : SmithConstructionState}
    (hs : Shaped source.rows source.cols construction s) (ht : Transforms source s.witness)
    (h : Elementary machine s s') :
    Shaped source.rows source.cols construction s' ∧ Transforms source s'.witness := by
  rcases h.effect hs with hsame | ⟨op, hop, heffect⟩ | ⟨op, hop, heffect⟩
  · exact ⟨hsame.shaped hs, hsame.transforms ht⟩
  · exact ⟨heffect.shaped hs, heffect.transforms hop ht⟩
  · exact ⟨heffect.shaped hs, heffect.transforms hop ht⟩

/-- The equations of the transforms hold after every elementary operation of a run. -/
theorem Reaches.keeps {source : ExactIntegerMatrix} {s' : SmithConstructionState}
    (hs : Shaped source.rows source.cols construction s) (ht : Transforms source s.witness)
    (h : Reaches machine s s') :
    Shaped source.rows source.cols construction s' ∧ Transforms source s'.witness := by
  induction h with
  | refl => exact ⟨hs, ht⟩
  | tail _ hstep ih => exact hstep.keeps ih.1 ih.2

/-- A run that leaves a given table on the diagonal. -/
structure Moved (machine : Machine) (rows cols : ℕ) (construction : SmithConstructionBudget)
    (s s' : SmithConstructionState) (D : ℕ → ℕ → ℤ) : Prop where
  reaches : Reaches machine s s'
  shaped : Shaped rows cols construction s'
  value : s'.diagonal.value = D

theorem Moved.refl (hs : Shaped rows cols construction s) :
    Moved machine rows cols construction s s s.diagonal.value :=
  ⟨Relation.ReflTransGen.refl, hs, rfl⟩

theorem Moved.trans {s' s'' : SmithConstructionState} {D D' : ℕ → ℕ → ℤ}
    (h : Moved machine rows cols construction s s' D)
    (h' : Moved machine rows cols construction s' s'' D') :
    Moved machine rows cols construction s s'' D' :=
  ⟨h.reaches.trans h'.reaches, h'.shaped, h'.value⟩

theorem inspect_moves {row col : ℕ} (hc : trace.Covers machine s)
    (hs : Shaped rows cols construction s) (hrow : row < rows) (hcol : col < cols) :
    Within (ConstructionLimit machine construction verification source trace)
      (fun result => result.1 = s.diagonal.value row col ∧
        Moved machine rows cols construction s result.2 s.diagonal.value)
      (s.inspect machine row col) := by
  rw [← hs.diagonal.1] at hrow
  rw [← hs.diagonal.2] at hcol
  apply (inspect_within hs.budget hc.here hrow hcol).returned.imp
  rintro ⟨value, s'⟩ ⟨hok, hvalue, hsame⟩
  refine ⟨hvalue, Relation.ReflTransGen.single (.inspect hrow hcol hok), hsame.shaped hs, ?_⟩
  rw [hsame.diagonal]

theorem swapRows_moves {first second : ℕ} (hc : trace.Covers machine s)
    (hs : Shaped rows cols construction s) (hfirst : first < rows) (hsecond : second < rows) :
    Within (ConstructionLimit machine construction verification source trace)
      (fun s' => Moved machine rows cols construction s s'
        ((LineOperation.swap first second).act s.diagonal.value))
      (s.swapRows machine first second) := by
  apply (swapRows_within hs hc.here hfirst hsecond).returned.imp
  rintro s' ⟨hok, heffect⟩
  rw [← hs.diagonal.1] at hfirst hsecond
  exact ⟨Relation.ReflTransGen.single (.swapRows hfirst hsecond hok), heffect.shaped hs,
    heffect.diagonal.2⟩

theorem swapColumns_moves {first second : ℕ} (hc : trace.Covers machine s)
    (hs : Shaped rows cols construction s) (hfirst : first < cols) (hsecond : second < cols) :
    Within (ConstructionLimit machine construction verification source trace)
      (fun s' => Moved machine rows cols construction s s'
        (flip ((LineOperation.swap first second).act (flip s.diagonal.value))))
      (s.swapColumns machine first second) := by
  apply (swapColumns_within hs hc.here hfirst hsecond).returned.imp
  rintro s' ⟨hok, heffect⟩
  rw [← hs.diagonal.2] at hfirst hsecond
  exact ⟨Relation.ReflTransGen.single (.swapColumns hfirst hsecond hok), heffect.shaped hs,
    heffect.diagonal.2⟩

theorem subtractRowMultiple_moves {target other : ℕ} {quotient : ℤ}
    (hc : trace.Covers machine s) (hs : Shaped rows cols construction s)
    (hcomputes : ∀ role row col value, s.RowChange (· - ·) (· + ·) target other quotient role row
      col value → s.Computes .rowReduction role row col value)
    (ht : target < rows) (hother : other < rows) (hne : target ≠ other) :
    Within (ConstructionLimit machine construction verification source trace)
      (fun s' => Moved machine rows cols construction s s'
        ((LineOperation.subtract target other quotient).act s.diagonal.value))
      (s.subtractRowMultiple machine target other quotient) := by
  apply (subtractRowMultiple_within hs hc.here (fun _ _ _ _ h => hc.number (hcomputes _ _ _ _ h))
    ht hother).returned.imp
  rintro s' ⟨hok, heffect⟩
  rw [← hs.diagonal.1] at ht hother
  exact ⟨Relation.ReflTransGen.single (.subtractRowMultiple ht hother hne hok),
    heffect.shaped hs, heffect.diagonal.2⟩

theorem subtractColumnMultiple_moves {target other : ℕ} {quotient : ℤ}
    {stage : SmithConstructionStage} {phase : String} (hc : trace.Covers machine s)
    (hs : Shaped rows cols construction s)
    (hcomputes : ∀ role row col value, s.ColumnChange target other quotient role row col value →
      s.Computes stage role row col value)
    (ht : target < cols) (hother : other < cols) (hne : target ≠ other) :
    Within (ConstructionLimit machine construction verification source trace)
      (fun s' => Moved machine rows cols construction s s'
        (flip ((LineOperation.subtract target other quotient).act (flip s.diagonal.value))))
      (s.subtractColumnMultiple machine target other quotient stage phase) := by
  apply (subtractColumnMultiple_within hs hc.here
    (fun _ _ _ _ h => hc.number (hcomputes _ _ _ _ h)) ht hother).returned.imp
  rintro s' ⟨hok, heffect⟩
  rw [← hs.diagonal.2] at ht hother
  exact ⟨Relation.ReflTransGen.single (.subtractColumnMultiple ht hother hne hok),
    heffect.shaped hs, heffect.diagonal.2⟩

theorem addRowForDivisibilityRepair_moves {target other : ℕ} (hc : trace.Covers machine s)
    (hs : Shaped rows cols construction s) (ht : target < rows) (hother : other < rows)
    (hlt : target < other) :
    Within (ConstructionLimit machine construction verification source trace)
      (fun s' => Moved machine rows cols construction s s' (repaired target other s.diagonal.value))
      (s.addRowForDivisibilityRepair machine target other) := by
  apply (addRowForDivisibilityRepair_within hs hc.here
    (fun _ _ _ _ h => hc.number (.repair hlt h)) ht hother).returned.imp
  rintro s' ⟨hok, heffect⟩
  rw [← hs.diagonal.1] at ht hother
  exact ⟨Relation.ReflTransGen.single (.addRowForDivisibilityRepair ht hother hlt.ne hok),
    heffect.shaped hs, heffect.diagonal.2⟩

theorem normalizePivotSign_moves {pivot : ℕ} (hc : trace.Covers machine s)
    (hs : Shaped rows cols construction s) (hneg : s.diagonal.value pivot pivot < 0)
    (hp : pivot < rows) :
    Within (ConstructionLimit machine construction verification source trace)
      (fun s' => Moved machine rows cols construction s s'
        ((LineOperation.negate pivot).act s.diagonal.value))
      (s.normalizePivotSign machine pivot) := by
  apply (normalizePivotSign_within hs hc.here (fun _ _ _ _ h => hc.number (.sign hneg h))
    hp).returned.imp
  rintro s' ⟨hok, heffect⟩
  rw [← hs.diagonal.1] at hp
  exact ⟨Relation.ReflTransGen.single (.normalizePivotSign hp hok), heffect.shaped hs,
    heffect.diagonal.2⟩

theorem refuseIf_passes {cause : IntegralTopologyError → Prop} {condition : Prop}
    [Decidable condition] {error : IntegralTopologyError} (h : ¬ condition) :
    Within cause (fun _ => True) (refuseIf condition error) :=
  (refuseIf_within fun hc => absurd hc h).imp fun _ _ => trivial

theorem checkedDivEuclid_within {value divisor : ℤ} {stage : SmithConstructionStage}
    {role : MatrixRole} {row col : ℕ} (hdivisor : divisor ≠ 0)
    (hcomputed : trace.computed stage role row col (value / divisor)) :
    Within (ConstructionLimit machine construction verification source trace) (· = value / divisor)
      (machine.checkedDivEuclid value divisor
        (.smithConstructionArithmeticOverflow stage role row col)) := by
  unfold Machine.checkedDivEuclid
  rw [if_neg hdivisor]
  exact checkedCoefficient_within fun h => ⟨_, hcomputed, h⟩

theorem checkedRemEuclid_within {value divisor : ℤ} {stage : SmithConstructionStage}
    {role : MatrixRole} {row col : ℕ} (hdivisor : divisor ≠ 0)
    (hcomputed : trace.computed stage role row col (value / divisor)) :
    Within (ConstructionLimit machine construction verification source trace) (· = value % divisor)
      (machine.checkedRemEuclid value divisor
        (.smithConstructionArithmeticOverflow stage role row col)) := by
  unfold Machine.checkedRemEuclid
  apply Within.bind (checkedDivEuclid_within hdivisor hcomputed)
  intro _ _
  exact Within.ok rfl

/-- A pivot inside the matrix, positive, with everything before it finished. -/
structure Ready (rows cols : ℕ) (construction : SmithConstructionBudget) (p : ℕ)
    (s : SmithConstructionState) : Prop where
  shaped : Shaped rows cols construction s
  row : p < rows
  col : p < cols
  reduced : Reduced p s.diagonal.value
  pos : 0 < s.diagonal.value p p

/-- A run to a ready state of smaller weight. -/
structure Progress (machine : Machine) (rows cols : ℕ) (construction : SmithConstructionBudget)
    (p : ℕ) (s s' : SmithConstructionState) : Prop where
  reaches : Reaches machine s s'
  ready : Ready rows cols construction p s'
  weight : weight rows cols p s'.diagonal.value < weight rows cols p s.diagonal.value

theorem emod_natAbs_lt {a b : ℤ} (hb : 0 < b) : ¬ (a % b).natAbs ≥ b.natAbs := by
  have hnonneg := Int.emod_nonneg a hb.ne'
  have hlt := Int.emod_lt_of_pos a hb
  omega

theorem emod_pos {a b : ℤ} (hb : 0 < b) (hne : a % b ≠ 0) : 0 < a % b :=
  lt_of_le_of_ne (Int.emod_nonneg a hb.ne') (Ne.symm hne)

theorem clearBelow_progress {p row : ℕ} (hc : trace.Covers machine s) (h : Ready rows cols construction p s) (hlt : p < row)
    (hrow : row < rows) (hne : s.diagonal.value row p ≠ 0) :
    Within (ConstructionLimit machine construction verification source trace)
      (Progress machine rows cols construction p s)
      (s.clearBelow machine p row (s.diagonal.value row p)) := by
  obtain ⟨hs, hp, hpc, hreduced, hpos⟩ := h
  have hfrom : (LineOperation.subtract row p (s.diagonal.value row p / s.diagonal.value p p)).From p :=
    ⟨hlt.le, le_rfl⟩
  unfold clearBelow
  apply Within.bind (inspect_moves hc hs hp hpc)
  rintro ⟨pivotValue, s1⟩ ⟨hpivot, hm1⟩
  dsimp only at hpivot hm1 ⊢
  rw [hpivot]
  apply Within.bind (refuseIf_passes (by omega))
  intro _ _
  apply Within.bind (checkedDivEuclid_within hpos.ne' (hc.number (.rowQuotient hlt hpos)))
  rintro _ rfl
  apply Within.bind (subtractRowMultiple_moves (hc.after hm1.reaches) hm1.shaped
    (fun _ _ _ _ h => .reduceRow hlt (hm1.value ▸ hpos) (by rwa [hm1.value])) hrow hp (by omega))
  intro s2 hm2
  rw [hm1.value] at hm2
  have hm2 : Moved machine rows cols construction s s2 (divided p row s.diagonal.value) :=
    hm1.trans hm2
  apply Within.bind (inspect_moves (hc.after hm2.reaches) hm2.shaped hrow hpc)
  rintro ⟨remainder, s3⟩ ⟨hremainder, hm3⟩
  rw [hm2.value] at hremainder hm3
  have hm3 : Moved machine rows cols construction s s3 (divided p row s.diagonal.value) :=
    hm2.trans hm3
  dsimp only at hremainder ⊢
  rw [divided_self] at hremainder
  rw [hremainder]
  split_ifs with hrem
  · apply Within.bind (refuseIf_passes (emod_natAbs_lt hpos))
    intro _ _
    apply (swapRows_moves (hc.after hm3.reaches) hm3.shaped hp hrow).imp
    intro s4 hm4
    rw [hm3.value] at hm4
    have hm4 := hm3.trans hm4
    refine ⟨hm4.reaches, ⟨hm4.shaped, hp, hpc, ?_, ?_⟩, ?_⟩
    · rw [hm4.value]
      exact (hreduced.act hfrom).act ⟨le_rfl, hlt.le⟩
    · rw [hm4.value, exchanged_pivot]
      exact emod_pos hpos hrem
    · rw [hm4.value]
      exact weight_exchanged_lt hp hpc hpos
  · push Not at hrem
    apply Within.ok
    refine ⟨hm3.reaches, ⟨hm3.shaped, hp, hpc, ?_, ?_⟩, ?_⟩
    · rw [hm3.value]
      exact hreduced.act hfrom
    · rw [hm3.value, divided_of_ne _ (by omega)]
      exact hpos
    · rw [hm3.value]
      exact weight_divided_lt hlt hrow hne hrem

theorem clearRight_progress {p col : ℕ} (hc : trace.Covers machine s) (h : Ready rows cols construction p s) (hlt : p < col)
    (hcol : col < cols) (hne : s.diagonal.value p col ≠ 0) :
    Within (ConstructionLimit machine construction verification source trace)
      (Progress machine rows cols construction p s)
      (s.clearRight machine p col (s.diagonal.value p col)) := by
  obtain ⟨hs, hp, hpc, hreduced, hpos⟩ := h
  have hfrom : (LineOperation.subtract col p (s.diagonal.value p col / s.diagonal.value p p)).From p :=
    ⟨hlt.le, le_rfl⟩
  unfold clearRight
  apply Within.bind (inspect_moves hc hs hp hpc)
  rintro ⟨pivotValue, s1⟩ ⟨hpivot, hm1⟩
  dsimp only at hpivot hm1 ⊢
  rw [hpivot]
  apply Within.bind (refuseIf_passes (by omega))
  intro _ _
  apply Within.bind (checkedDivEuclid_within hpos.ne'
    (hc.number (.columnQuotient (Or.inl rfl) hlt hpos)))
  rintro _ rfl
  apply Within.bind (subtractColumnMultiple_moves (hc.after hm1.reaches) hm1.shaped
    (fun _ _ _ _ h => .reduceColumn (Or.inl rfl) hlt (hm1.value ▸ hpos) (by rwa [hm1.value]))
    hcol hpc (by omega))
  intro s2 hm2
  rw [hm1.value] at hm2
  have hm2 : Moved machine rows cols construction s s2
      (flip (divided p col (flip s.diagonal.value))) :=
    hm1.trans hm2
  apply Within.bind (inspect_moves (hc.after hm2.reaches) hm2.shaped hp hcol)
  rintro ⟨remainder, s3⟩ ⟨hremainder, hm3⟩
  rw [hm2.value] at hremainder hm3
  have hm3 : Moved machine rows cols construction s s3
      (flip (divided p col (flip s.diagonal.value))) :=
    hm2.trans hm3
  have hremainder : remainder = s.diagonal.value p col % s.diagonal.value p p :=
    hremainder.trans (divided_self (flip s.diagonal.value))
  dsimp only
  rw [hremainder]
  split_ifs with hrem
  · apply Within.bind (refuseIf_passes (emod_natAbs_lt hpos))
    intro _ _
    apply (swapColumns_moves (hc.after hm3.reaches) hm3.shaped hpc hcol).imp
    intro s4 hm4
    rw [hm3.value] at hm4
    have hm4 := hm3.trans hm4
    refine ⟨hm4.reaches, ⟨hm4.shaped, hp, hpc, ?_, ?_⟩, ?_⟩
    · rw [hm4.value]
      exact (hreduced.coact hfrom).coact ⟨le_rfl, hlt.le⟩
    · rw [hm4.value]
      exact lt_of_lt_of_eq (emod_pos hpos hrem) (exchanged_pivot (flip s.diagonal.value)).symm
    · rw [hm4.value, weight_flip cols rows, ← weight_flip rows cols]
      exact weight_exchanged_lt hpc hp hpos
  · push Not at hrem
    apply Within.ok
    refine ⟨hm3.reaches, ⟨hm3.shaped, hp, hpc, ?_, ?_⟩, ?_⟩
    · rw [hm3.value]
      exact hreduced.coact hfrom
    · rw [hm3.value]
      exact lt_of_lt_of_eq hpos (divided_of_ne (flip s.diagonal.value) (by omega) p).symm
    · rw [hm3.value, weight_flip cols rows, ← weight_flip rows cols]
      exact weight_divided_lt hlt hcol hne hrem

theorem Ready.moved {p : ℕ} {s' : SmithConstructionState} (h : Ready rows cols construction p s)
    (hm : Moved machine rows cols construction s s' s.diagonal.value) :
    Ready rows cols construction p s' := by
  refine ⟨hm.shaped, h.row, h.col, ?_, ?_⟩
  · rw [hm.value]
    exact h.reduced
  · rw [hm.value]
    exact h.pos

theorem Progress.after {p : ℕ} {s' s'' : SmithConstructionState}
    (hm : Moved machine rows cols construction s s' s.diagonal.value)
    (h : Progress machine rows cols construction p s' s'') :
    Progress machine rows cols construction p s s'' := by
  refine ⟨hm.reaches.trans h.reaches, h.ready, ?_⟩
  rw [← hm.value]
  exact h.weight

/-- A scan restarts with progress or finds the listed entries below the pivot clear. -/
theorem reduceColumn_within {p : ℕ} {list : List ℕ} (hc : trace.Covers machine s)
    (h : Ready rows cols construction p s) (hlist : ∀ row ∈ list, p < row ∧ row < rows) :
    Within (ConstructionLimit machine construction verification source trace)
      (fun result => if result.1 then Progress machine rows cols construction p s result.2
        else Moved machine rows cols construction s result.2 s.diagonal.value ∧
          ∀ row ∈ list, s.diagonal.value row p = 0)
      (reduceColumn machine p list s) := by
  induction list generalizing s with
  | nil => exact Within.ok ⟨Moved.refl h.shaped, fun row hrow => absurd hrow List.not_mem_nil⟩
  | cons row rest ih =>
    obtain ⟨hlt, hrow⟩ := hlist row List.mem_cons_self
    unfold reduceColumn
    apply Within.bind (inspect_moves hc h.shaped hrow h.col)
    rintro ⟨entry, s1⟩ ⟨hentry, hm⟩
    dsimp only at hentry hm ⊢
    rw [hentry]
    split_ifs with hzero
    · apply (ih (hc.after hm.reaches) (h.moved hm) fun r hr => hlist r (List.mem_cons_of_mem _ hr)).imp
      rintro ⟨restart, s2⟩ hresult
      cases restart with
      | true => exact Progress.after hm hresult
      | false =>
        obtain ⟨hm2, hclear⟩ := hresult
        rw [hm.value] at hm2 hclear
        refine ⟨hm.trans hm2, fun r hr => ?_⟩
        rcases List.mem_cons.1 hr with rfl | hr
        · exact hzero
        · exact hclear r hr
    · have hne : s1.diagonal.value row p ≠ 0 := by
        rw [hm.value]
        exact hzero
      rw [← hm.value]
      apply Within.bind (clearBelow_progress (hc.after hm.reaches) (h.moved hm) hlt hrow hne)
      intro s2 hprogress
      exact Within.ok (Progress.after hm hprogress)

/-- A scan restarts with progress or finds the listed entries right of the pivot clear. -/
theorem reduceRow_within {p : ℕ} {list : List ℕ} (hc : trace.Covers machine s)
    (h : Ready rows cols construction p s) (hlist : ∀ col ∈ list, p < col ∧ col < cols) :
    Within (ConstructionLimit machine construction verification source trace)
      (fun result => if result.1 then Progress machine rows cols construction p s result.2
        else Moved machine rows cols construction s result.2 s.diagonal.value ∧
          ∀ col ∈ list, s.diagonal.value p col = 0)
      (reduceRow machine p list s) := by
  induction list generalizing s with
  | nil => exact Within.ok ⟨Moved.refl h.shaped, fun col hcol => absurd hcol List.not_mem_nil⟩
  | cons col rest ih =>
    obtain ⟨hlt, hcol⟩ := hlist col List.mem_cons_self
    unfold reduceRow
    apply Within.bind (inspect_moves hc h.shaped h.row hcol)
    rintro ⟨entry, s1⟩ ⟨hentry, hm⟩
    dsimp only at hentry hm ⊢
    rw [hentry]
    split_ifs with hzero
    · apply (ih (hc.after hm.reaches) (h.moved hm) fun c hmem =>
        hlist c (List.mem_cons_of_mem _ hmem)).imp
      rintro ⟨restart, s2⟩ hresult
      cases restart with
      | true => exact Progress.after hm hresult
      | false =>
        obtain ⟨hm2, hclear⟩ := hresult
        rw [hm.value] at hm2 hclear
        refine ⟨hm.trans hm2, fun c hmem => ?_⟩
        rcases List.mem_cons.1 hmem with rfl | hmem
        · exact hzero
        · exact hclear c hmem
    · have hne : s1.diagonal.value p col ≠ 0 := by
        rw [hm.value]
        exact hzero
      rw [← hm.value]
      apply Within.bind (clearRight_progress (hc.after hm.reaches) (h.moved hm) hlt hcol hne)
      intro s2 hprogress
      exact Within.ok (Progress.after hm hprogress)

/-- A scan of the block returns a listed place that the divisor does not divide, if any. -/
theorem scanNondivisible_within {p : ℕ} {divisor : ℤ} {list : List (ℕ × ℕ)}
    (hc : trace.Covers machine s) (hs : Shaped rows cols construction s)
    (hdivisor : divisor = s.diagonal.value p p) (hpos : 0 < s.diagonal.value p p)
    (hlist : ∀ place ∈ list, (p < place.1 ∧ place.1 < rows) ∧ p < place.2 ∧ place.2 < cols) :
    Within (ConstructionLimit machine construction verification source trace)
      (fun result => Moved machine rows cols construction s result.2 s.diagonal.value ∧
        match result.1 with
        | none => ∀ place ∈ list, divisor ∣ s.diagonal.value place.1 place.2
        | some place => place ∈ list ∧ s.diagonal.value place.1 place.2 % divisor ≠ 0)
      (scanNondivisible machine divisor list s) := by
  induction list generalizing s with
  | nil => exact Within.ok ⟨Moved.refl hs, fun place hplace => absurd hplace List.not_mem_nil⟩
  | cons place rest ih =>
    obtain ⟨row, col⟩ := place
    obtain ⟨⟨hlt, hrow⟩, hlt', hcol⟩ := hlist (row, col) List.mem_cons_self
    have hnumber := hc.number (.scanQuotient hlt hlt' hpos)
    rw [← hdivisor] at hnumber
    unfold scanNondivisible
    apply Within.bind (inspect_moves hc hs hrow hcol)
    rintro ⟨value, s1⟩ ⟨hvalue, hm⟩
    dsimp only at hvalue hm ⊢
    rw [hvalue]
    apply Within.bind (checkedRemEuclid_within (by omega) hnumber)
    rintro _ rfl
    split_ifs with hrem
    · exact Within.ok ⟨hm, List.mem_cons_self, hrem⟩
    · push Not at hrem
      apply (ih (hc.after hm.reaches) hm.shaped (hm.value ▸ hdivisor) (hm.value ▸ hpos)
        fun r hr => hlist r (List.mem_cons_of_mem _ hr)).imp
      rintro ⟨found, s2⟩ ⟨hm2, hfound⟩
      rw [hm.value] at hm2
      refine ⟨hm.trans hm2, ?_⟩
      cases found with
      | none =>
        dsimp only at hfound ⊢
        rw [hm.value] at hfound
        intro place hplace
        rcases List.mem_cons.1 hplace with rfl | hplace
        · exact Int.dvd_of_emod_eq_zero hrem
        · exact hfound place hplace
      | some place =>
        dsimp only at hfound ⊢
        rw [hm.value] at hfound
        exact ⟨List.mem_cons_of_mem _ hfound.1, hfound.2⟩

theorem mem_span {first last n : ℕ} : n ∈ span first last ↔ first ≤ n ∧ n < last := by
  unfold span
  rw [List.mem_range'_1]
  omega

theorem mem_places {offset m n : ℕ} {place : ℕ × ℕ} : place ∈ places offset m n ↔
    (offset ≤ place.1 ∧ place.1 < m) ∧ offset ≤ place.2 ∧ place.2 < n := by
  obtain ⟨row, col⟩ := place
  simp only [places, List.mem_flatMap, List.mem_map, mem_span, Prod.mk.injEq]
  constructor
  · rintro ⟨r, hr, c, hc, rfl, rfl⟩
    exact ⟨hr, hc⟩
  · rintro ⟨hr, hc⟩
    exact ⟨row, hr, col, hc, rfl, rfl⟩

/-- The repair of divisibility brings a smaller remainder to the pivot. -/
theorem repairDivisibility_progress {p row col : ℕ} (hc : trace.Covers machine s)
    (h : Ready rows cols construction p s)
    (hbelow : ∀ r, p < r → s.diagonal.value r p = 0)
    (hright : ∀ c, p < c → s.diagonal.value p c = 0) (hrow : p < row ∧ row < rows)
    (hcol : p < col ∧ col < cols)
    (hrem : s.diagonal.value row col % s.diagonal.value p p ≠ 0) :
    Within (ConstructionLimit machine construction verification source trace)
      (Progress machine rows cols construction p s)
      (s.repairDivisibility machine p row col (s.diagonal.value p p)) := by
  obtain ⟨hs, hp, hpc, hreduced, hpos⟩ := h
  have hpivot : repaired p row s.diagonal.value p p = s.diagonal.value p p := by
    rw [repaired_pivotRow, hbelow row hrow.1, add_zero]
  have hentry : repaired p row s.diagonal.value p col = s.diagonal.value row col := by
    rw [repaired_pivotRow, hright col hcol.1, zero_add]
  unfold repairDivisibility
  apply Within.bind (addRowForDivisibilityRepair_moves hc hs hp hrow.2 hrow.1)
  intro s1 hm1
  have hc1 := hc.after hm1.reaches
  have hpos1 : 0 < s1.diagonal.value p p := by
    rw [hm1.value, hpivot]
    exact hpos
  have hquotient := hc1.number (.columnQuotient (Or.inr rfl) hcol.1 hpos1)
  rw [hm1.value, hpivot] at hquotient
  apply Within.bind (inspect_moves hc1 hm1.shaped hp hcol.2)
  rintro ⟨entry, s2⟩ ⟨hvalue, hm2⟩
  rw [hm1.value] at hvalue hm2
  have hm2 := hm1.trans hm2
  dsimp only at hvalue ⊢
  rw [hvalue]
  apply Within.bind (checkedDivEuclid_within hpos.ne' hquotient)
  rintro _ rfl
  apply Within.bind (subtractColumnMultiple_moves (hc.after hm2.reaches) hm2.shaped
    (fun _ _ _ _ h => .reduceColumn (Or.inr rfl) hcol.1 (by rw [hm2.value, hpivot]; exact hpos)
      (by rwa [hm2.value, hpivot])) hcol.2 hpc (by omega))
  intro s3 hm3
  have hdivided : flip ((LineOperation.subtract col p
      (repaired p row s.diagonal.value p col / s.diagonal.value p p)).act
        (flip s2.diagonal.value)) =
      flip (divided p col (flip (repaired p row s.diagonal.value))) := by
    rw [hm2.value, ← hpivot]
    rfl
  rw [hdivided] at hm3
  have hm3 := hm2.trans hm3
  apply Within.bind (inspect_moves (hc.after hm3.reaches) hm3.shaped hp hcol.2)
  rintro ⟨remainder, s4⟩ ⟨hremainder, hm4⟩
  rw [hm3.value] at hremainder hm4
  have hm4 := hm3.trans hm4
  have hself : divided p col (flip (repaired p row s.diagonal.value)) col p =
      s.diagonal.value row col % s.diagonal.value p p := by
    rw [divided_self]
    exact congrArg₂ _ hentry hpivot
  have hremainder : remainder = s.diagonal.value row col % s.diagonal.value p p :=
    hremainder.trans hself
  dsimp only
  rw [hremainder]
  apply Within.bind (refuseIf_passes (not_or.2 ⟨hrem, emod_natAbs_lt hpos⟩))
  intro _ _
  apply (swapColumns_moves (hc.after hm4.reaches) hm4.shaped hpc hcol.2).imp
  intro s5 hm5
  rw [hm4.value] at hm5
  have hm5 := hm4.trans hm5
  have hlast : s5.diagonal.value p p = s.diagonal.value row col % s.diagonal.value p p := by
    rw [hm5.value]
    exact (exchanged_pivot (flip (repaired p row s.diagonal.value))).trans
      (congrArg₂ _ hentry hpivot)
  refine ⟨hm5.reaches, ⟨hm5.shaped, hp, hpc, ?_, ?_⟩, ?_⟩
  · rw [hm5.value]
    have hrepaired : Reduced p (repaired p row s.diagonal.value) :=
      hreduced.act ⟨le_rfl, hrow.1.le⟩
    have hcleared : Reduced p (flip (divided p col (flip (repaired p row s.diagonal.value)))) :=
      hrepaired.coact ⟨hcol.1.le, le_rfl⟩
    exact hcleared.coact ⟨le_rfl, hcol.1.le⟩
  · rw [hlast]
    exact emod_pos hpos hrem
  · apply weight_lt_of_pivot hp hpc
    · rw [hlast]
      exact Int.emod_lt_of_pos _ hpos
    · rw [hlast]
      exact Int.emod_nonneg _ hpos.ne'

theorem value_eq_zero_of_scan {p : ℕ} (hs : Shaped rows cols construction s)
    (hscan : ∀ row ∈ span (p + 1) rows, s.diagonal.value row p = 0) {row : ℕ} (hlt : p < row) :
    s.diagonal.value row p = 0 := by
  by_cases hrow : row < rows
  · exact hscan row (mem_span.2 ⟨hlt, hrow⟩)
  · apply ExactIntegerMatrix.value_of_not_lt
    rw [hs.diagonal.1]
    omega

theorem value_eq_zero_of_rowScan {p : ℕ} (hs : Shaped rows cols construction s)
    (hscan : ∀ col ∈ span (p + 1) cols, s.diagonal.value p col = 0) {col : ℕ} (hlt : p < col) :
    s.diagonal.value p col = 0 := by
  by_cases hcol : col < cols
  · exact hscan col (mem_span.2 ⟨hlt, hcol⟩)
  · apply ExactIntegerMatrix.value_of_not_lt
    rw [hs.diagonal.2]
    omega

/-- A pass makes progress or finishes the pivot. -/
theorem reduceOnce_within {p : ℕ} (hc : trace.Covers machine s)
    (h : Ready rows cols construction p s) :
    Within (ConstructionLimit machine construction verification source trace)
      (fun result => if result.1 then Progress machine rows cols construction p s result.2
        else Moved machine rows cols construction s result.2 s.diagonal.value ∧
          Reduced (p + 1) s.diagonal.value)
      (s.reduceOnce machine p) := by
  unfold reduceOnce
  rw [h.shaped.diagonal.1]
  apply Within.bind (reduceColumn_within hc h fun row hrow => by rw [mem_span] at hrow; omega)
  rintro ⟨restart, s1⟩ hcolumn
  cases restart with
  | true => exact Within.ok hcolumn
  | false =>
    obtain ⟨hm1, hbelow⟩ := hcolumn
    have h1 := h.moved hm1
    dsimp only
    rw [if_neg Bool.false_ne_true, h1.shaped.diagonal.2]
    apply Within.bind (reduceRow_within (hc.after hm1.reaches) h1 fun col hcol => by rw [mem_span] at hcol; omega)
    rintro ⟨restart, s2⟩ hrow
    cases restart with
    | true => exact Within.ok (Progress.after hm1 hrow)
    | false =>
      obtain ⟨hm2, hright⟩ := hrow
      rw [hm1.value] at hm2 hright
      have hm2 := hm1.trans hm2
      have h2 := h.moved hm2
      dsimp only
      rw [if_neg Bool.false_ne_true]
      apply Within.bind (inspect_moves (hc.after hm2.reaches) h2.shaped h2.row h2.col)
      rintro ⟨pivotValue, s3⟩ ⟨hpivot, hm3⟩
      rw [hm2.value] at hpivot hm3
      have hm3 := hm2.trans hm3
      have h3 := h.moved hm3
      dsimp only at hpivot ⊢
      rw [hpivot]
      apply Within.bind (refuseIf_passes (not_le.2 h.pos))
      intro _ _
      have hbelow' : ∀ r, p < r → s.diagonal.value r p = 0 :=
        fun r hr => value_eq_zero_of_scan h.shaped hbelow hr
      have hright' : ∀ c, p < c → s.diagonal.value p c = 0 :=
        fun c hc => value_eq_zero_of_rowScan h.shaped hright hc
      unfold findNondivisible
      rw [h3.shaped.diagonal.1, h3.shaped.diagonal.2]
      apply Within.bind (scanNondivisible_within (hc.after hm3.reaches) h3.shaped
        (by rw [hm3.value]) h3.pos fun place hplace => by rw [mem_places] at hplace; omega)
      rintro ⟨found, s4⟩ ⟨hm4, hfound⟩
      rw [hm3.value] at hm4
      have hm4 := hm3.trans hm4
      have h4 := h.moved hm4
      cases found with
      | none =>
        dsimp only at hfound ⊢
        rw [hm3.value] at hfound
        apply Within.ok
        refine ⟨hm4, h.reduced.advance h.pos hbelow' hright' fun r c hr hc => ?_⟩
        by_cases hin : r < rows ∧ c < cols
        · exact hfound (r, c) (mem_places.2 ⟨⟨hr, hin.1⟩, hc, hin.2⟩)
        · have hzero : s.diagonal.value r c = 0 := by
            apply ExactIntegerMatrix.value_of_not_lt
            rw [h.shaped.diagonal.1, h.shaped.diagonal.2]
            exact hin
          rw [hzero]
          exact dvd_zero _
      | some place =>
        obtain ⟨row, col⟩ := place
        dsimp only at hfound ⊢
        rw [hm3.value] at hfound
        obtain ⟨hmem, hrem⟩ := hfound
        rw [mem_places] at hmem
        rw [← hm4.value] at hbelow' hright' hrem ⊢
        apply Within.bind (repairDivisibility_progress (hc.after hm4.reaches) h4 hbelow' hright'
          ⟨hmem.1.1, hmem.1.2⟩ ⟨hmem.2.1, hmem.2.2⟩ hrem)
        intro s5 hprogress
        exact Within.ok (Progress.after hm4 hprogress)

/-- The inner loop ends, whatever the fuel beyond the weight, and finishes the pivot. -/
theorem reducePivot_within {p : ℕ} (hc : trace.Covers machine s)
    (h : Ready rows cols construction p s) :
    ∃ result, (∀ fuel, weight rows cols p s.diagonal.value < fuel →
        reducePivot machine p fuel s = some result) ∧
      Within (ConstructionLimit machine construction verification source trace)
        (fun s' => Reaches machine s s' ∧ Shaped rows cols construction s' ∧
          Reduced (p + 1) s'.diagonal.value) result := by
  induction hweight : weight rows cols p s.diagonal.value using Nat.strong_induction_on
    generalizing s with
  | _ w ih =>
    subst hweight
    have hpass : Within (ConstructionLimit machine construction verification source trace) _
        (s.reduceOnce machine p) := reduceOnce_within hc h
    cases honce : s.reduceOnce machine p with
    | error error =>
      rw [honce] at hpass
      refine ⟨.error error, fun fuel hfuel => ?_, hpass⟩
      obtain ⟨fuel, rfl⟩ := Nat.exists_eq_add_one_of_ne_zero (Nat.ne_of_gt (by omega : 0 < fuel))
      rw [reducePivot, honce]
    | ok result =>
      obtain ⟨restart, s'⟩ := result
      rw [honce] at hpass
      cases restart with
      | true =>
        have hprogress : Progress machine rows cols construction p s s' := hpass
        obtain ⟨result, hrun, hwithin⟩ := ih _ hprogress.weight (hc.after hprogress.reaches) hprogress.ready rfl
        refine ⟨result, fun fuel hfuel => ?_, ?_⟩
        · obtain ⟨fuel, rfl⟩ :=
            Nat.exists_eq_add_one_of_ne_zero (Nat.ne_of_gt (by omega : 0 < fuel))
          rw [reducePivot, honce]
          exact hrun fuel (by have := hprogress.weight; omega)
        · apply hwithin.imp
          rintro s'' ⟨hreaches, hrest⟩
          exact ⟨hprogress.reaches.trans hreaches, hrest⟩
      | false =>
        obtain ⟨hm, hreduced⟩ :
          Moved machine rows cols construction s s' s.diagonal.value ∧
            Reduced (p + 1) s.diagonal.value := hpass
        refine ⟨.ok s', fun fuel hfuel => ?_, hm.reaches, hm.shaped, ?_⟩
        · obtain ⟨fuel, rfl⟩ :=
            Nat.exists_eq_add_one_of_ne_zero (Nat.ne_of_gt (by omega : 0 < fuel))
          rw [reducePivot, honce]
        · rw [hm.value]
          exact hreduced

/-- The scan for a pivot returns a listed non-zero place, if there is one. -/
theorem scanPivot_within {list : List (ℕ × ℕ)} {best : Option (ℕ × ℕ × ℕ)}
    (hc : trace.Covers machine s) (hs : Shaped rows cols construction s)
    (hlist : ∀ place ∈ list, place.1 < rows ∧ place.2 < cols) :
    Within (ConstructionLimit machine construction verification source trace)
      (fun result => Moved machine rows cols construction s result.2 s.diagonal.value ∧
        match result.1 with
        | none => best = none ∧ ∀ place ∈ list, s.diagonal.value place.1 place.2 = 0
        | some found => best = some found ∨
          found.2 ∈ list ∧ s.diagonal.value found.2.1 found.2.2 ≠ 0)
      (scanPivot machine list best s) := by
  induction list generalizing s best with
  | nil =>
    apply Within.ok
    refine ⟨Moved.refl hs, ?_⟩
    cases best with
    | none => exact ⟨rfl, fun place hplace => absurd hplace List.not_mem_nil⟩
    | some found => exact Or.inl rfl
  | cons place rest ih =>
    obtain ⟨row, col⟩ := place
    obtain ⟨hrow, hcol⟩ := hlist (row, col) List.mem_cons_self
    have hrest : ∀ place ∈ rest, place.1 < rows ∧ place.2 < cols :=
      fun r hr => hlist r (List.mem_cons_of_mem _ hr)
    unfold scanPivot
    apply Within.bind (inspect_moves hc hs hrow hcol)
    rintro ⟨value, s1⟩ ⟨hvalue, hm⟩
    dsimp only at hvalue hm ⊢
    rw [hvalue]
    have hskip {best' : Option (ℕ × ℕ × ℕ)} (hbest : best' ≠ none ∨ s.diagonal.value row col = 0)
        (hfrom : ∀ found, best' = some found → best = some found ∨
          found.2 ∈ (row, col) :: rest ∧ s.diagonal.value found.2.1 found.2.2 ≠ 0)
        (hnone : best' = none → best = none) :
        Within (ConstructionLimit machine construction verification source trace)
          (fun result => Moved machine rows cols construction s result.2 s.diagonal.value ∧
            match result.1 with
            | none => best = none ∧
              ∀ place ∈ (row, col) :: rest, s.diagonal.value place.1 place.2 = 0
            | some found => best = some found ∨
              found.2 ∈ (row, col) :: rest ∧ s.diagonal.value found.2.1 found.2.2 ≠ 0)
          (scanPivot machine rest best' s1) := by
      apply (ih (hc.after hm.reaches) hm.shaped hrest).imp
      rintro ⟨found, s2⟩ ⟨hm2, hfound⟩
      rw [hm.value] at hm2
      refine ⟨hm.trans hm2, ?_⟩
      cases found with
      | none =>
        dsimp only at hfound ⊢
        rw [hm.value] at hfound
        obtain ⟨hbest', hclear⟩ := hfound
        refine ⟨hnone hbest', fun place hplace => ?_⟩
        rcases List.mem_cons.1 hplace with rfl | hplace
        · exact hbest.resolve_left (not_not.2 hbest')
        · exact hclear place hplace
      | some found =>
        dsimp only at hfound ⊢
        rw [hm.value] at hfound
        rcases hfound with hbest' | ⟨hmem, hne⟩
        · exact hfrom found hbest'
        · exact Or.inr ⟨List.mem_cons_of_mem _ hmem, hne⟩
    split_ifs with hzero hbetter
    · exact hskip (Or.inr hzero) (fun found hfound => Or.inl hfound) id
    · apply hskip (Or.inl (Option.some_ne_none _))
      · rintro found ⟨⟩
        exact Or.inr ⟨List.mem_cons_self, hzero⟩
      · rintro ⟨⟩
    · apply hskip
      · apply Or.inl
        rintro rfl
        exact hbetter rfl
      · exact fun found hfound => Or.inl hfound
      · exact id

/-- A state whose remaining block is zero. -/
structure Finished (rows cols : ℕ) (construction : SmithConstructionBudget) (p : ℕ)
    (s : SmithConstructionState) : Prop where
  shaped : Shaped rows cols construction s
  reduced : Reduced p s.diagonal.value
  rest : ∀ r c, p ≤ r → p ≤ c → r < rows → c < cols → s.diagonal.value r c = 0

theorem act_swap_self (p : ℕ) (D : ℕ → ℕ → ℤ) : (LineOperation.swap p p).act D = D := by
  funext r c
  simp only [LineOperation.act]
  split_ifs with h
  · rw [h]
  · rfl

/-- The pivot row is exchanged unless it is in place. -/
theorem swapRows_unless_moves {p row : ℕ} (hc : trace.Covers machine s)
    (hs : Shaped rows cols construction s) (hp : p < rows) (hrow : row < rows) :
    Within (ConstructionLimit machine construction verification source trace)
      (fun s' => Moved machine rows cols construction s s'
        ((LineOperation.swap p row).act s.diagonal.value))
      (if row ≠ p then s.swapRows machine p row else pure s) := by
  split_ifs with h
  · exact swapRows_moves hc hs hp hrow
  · push Not at h
    rw [h, act_swap_self]
    exact Within.ok (Moved.refl hs)

theorem swapColumns_unless_moves {p col : ℕ} (hc : trace.Covers machine s)
    (hs : Shaped rows cols construction s) (hp : p < cols) (hcol : col < cols) :
    Within (ConstructionLimit machine construction verification source trace)
      (fun s' => Moved machine rows cols construction s s'
        (flip ((LineOperation.swap p col).act (flip s.diagonal.value))))
      (if col ≠ p then s.swapColumns machine p col else pure s) := by
  split_ifs with h
  · exact swapColumns_moves hc hs hp hcol
  · push Not at h
    rw [h, act_swap_self]
    exact Within.ok (Moved.refl hs)

/-- The pivot is brought in place and made positive, or nothing is left to reduce. -/
theorem preparePivot_within {p : ℕ} (hc : trace.Covers machine s)
    (hs : Shaped rows cols construction s) (hp : p < rows) (hpc : p < cols)
    (hreduced : Reduced p s.diagonal.value) :
    Within (ConstructionLimit machine construction verification source trace)
      (fun result => Reaches machine s result.2 ∧
        if result.1 then Ready rows cols construction p result.2
        else Finished rows cols construction p result.2)
      (s.preparePivot machine p) := by
  have hscan : Within (ConstructionLimit machine construction verification source trace) _
      (scanPivot machine (places p rows cols) none s) :=
    scanPivot_within hc hs fun place hplace => by rw [mem_places] at hplace; omega
  unfold preparePivot findPivot
  rw [hs.diagonal.1, hs.diagonal.2, bind_assoc]
  apply Within.bind hscan
  rintro ⟨found, s1⟩ ⟨hm1, hfound⟩
  cases found with
  | none =>
    dsimp only at hfound hm1
    refine ⟨hm1.reaches, hm1.shaped, ?_, ?_⟩
    · rw [hm1.value]
      exact hreduced
    · intro r c hr hc hrows hcols
      rw [hm1.value]
      exact hfound.2 (r, c) (mem_places.2 ⟨⟨hr, hrows⟩, hc, hcols⟩)
  | some found =>
    obtain ⟨magnitude, row, col⟩ := found
    dsimp only at hfound hm1
    obtain ⟨hmem, hne⟩ := hfound.resolve_left (by rintro ⟨⟩)
    rw [mem_places] at hmem
    obtain ⟨⟨hrow, hrow'⟩, hcol, hcol'⟩ := hmem
    dsimp only at hrow hrow' hcol hcol'
    simp only [pure_bind, Option.map_some]
    apply Within.bind (swapRows_unless_moves (hc.after hm1.reaches) hm1.shaped hp hrow')
    intro s2 hm2
    rw [hm1.value] at hm2
    have hm2 := hm1.trans hm2
    apply Within.bind (swapColumns_unless_moves (hc.after hm2.reaches) hm2.shaped hpc hcol')
    intro s3 hm3
    rw [hm2.value] at hm3
    have hm3 := hm2.trans hm3
    have hreduced3 : Reduced p s3.diagonal.value := by
      rw [hm3.value]
      have hrows : Reduced p ((LineOperation.swap p row).act s.diagonal.value) :=
        hreduced.act ⟨le_rfl, hrow⟩
      exact hrows.coact ⟨le_rfl, hcol⟩
    have hpivot3 : s3.diagonal.value p p = s.diagonal.value row col := by
      rw [hm3.value]
      simp only [LineOperation.act, flip, if_true]
    apply Within.bind (inspect_moves (hc.after hm3.reaches) hm3.shaped hp hpc)
    rintro ⟨sign, s4⟩ ⟨hsign, hm4⟩
    dsimp only at hsign hm4
    have hreaches := hm3.reaches.trans hm4.reaches
    rw [hpivot3] at hsign
    rw [hsign]
    split_ifs with hnegative
    · have hpivot4 : s4.diagonal.value p p < 0 := by
        rw [hm4.value, hpivot3]
        exact hnegative
      apply Within.bind (normalizePivotSign_moves (hc.after hreaches) hm4.shaped hpivot4 hp)
      intro s5 hm5
      refine ⟨hreaches.trans hm5.reaches, hm5.shaped, hp, hpc, ?_, ?_⟩
      · rw [hm5.value, hm4.value]
        have hfrom : (LineOperation.negate p).From p := le_rfl
        exact hreduced3.act hfrom
      · rw [hm5.value, hm4.value]
        simp only [LineOperation.act, if_true]
        omega
    · refine ⟨hreaches, hm4.shaped, hp, hpc, ?_, ?_⟩
      · rw [hm4.value]
        exact hreduced3
      · rw [hm4.value, hpivot3]
        omega

/-- The diagonal of a finished state is canonical. -/
theorem Finished.canonical {p : ℕ} (h : Finished rows cols construction p s) :
    Canonical s.diagonal := by
  have hrest (i : ℕ) (hpi : p ≤ i) (hi : i < min rows cols) : s.diagonal.value i i = 0 :=
    h.rest i i hpi hpi (by omega) (by omega)
  constructor <;> rw [h.shaped.diagonal.1, h.shaped.diagonal.2]
  · intro row hrow col hcol hne
    by_cases hp : row < p ∨ col < p
    · exact h.reduced.zero row col hne hp
    · exact h.rest row col (by omega) (by omega) hrow hcol
  · intro i hi
    by_cases hp : i < p
    · exact (h.reduced.pos i hp).le
    · rw [hrest i (by omega) hi]
  · intro i j hij hj hzero
    by_cases hp : i < p
    · exact absurd hzero (h.reduced.pos i hp).ne'
    · exact hrest j (by omega) hj
  · intro i hi
    by_cases hp : i < p
    · exact h.reduced.dvd i hp (i + 1) (i + 1) (by omega) (by omega)
    · rw [hrest (i + 1) (by omega) hi]
      exact dvd_zero _

/-- The loop over the pivots ends, whatever the fuel beyond a bound. -/
theorem reducePivots_within {p count : ℕ} (hc : trace.Covers machine s)
    (hs : Shaped rows cols construction s)
    (hreduced : Reduced p s.diagonal.value) (hcount : p + count = min rows cols) :
    ∃ bound result, (∀ fuel, bound ≤ fuel →
        reducePivots machine fuel (List.range' p count) s = some result) ∧
      Within (ConstructionLimit machine construction verification source trace)
        (fun s' => Reaches machine s s' ∧ ∃ q, Finished rows cols construction q s') result := by
  induction count generalizing p s with
  | zero =>
    refine ⟨0, .ok s, fun fuel _ => rfl, Relation.ReflTransGen.refl, p, hs, hreduced, ?_⟩
    intro r c hr hc hrows hcols
    omega
  | succ count ih =>
    have hprepare : Within (ConstructionLimit machine construction verification source trace) _
        (s.preparePivot machine p) := preparePivot_within hc hs (by omega) (by omega) hreduced
    rw [List.range'_succ]
    cases hok : s.preparePivot machine p with
    | error error =>
      rw [hok] at hprepare
      refine ⟨0, .error error, fun fuel _ => ?_, hprepare⟩
      rw [reducePivots, hok]
    | ok result =>
      obtain ⟨found, s1⟩ := result
      rw [hok] at hprepare
      cases found with
      | false =>
        obtain ⟨hreaches, hfinished⟩ :
          Reaches machine s s1 ∧ Finished rows cols construction p s1 := hprepare
        refine ⟨0, .ok s1, fun fuel _ => ?_, hreaches, p, hfinished⟩
        rw [reducePivots, hok]
      | true =>
        obtain ⟨hreaches, hready⟩ :
          Reaches machine s s1 ∧ Ready rows cols construction p s1 := hprepare
        obtain ⟨result, hrun, hwithin⟩ : ∃ result, _ ∧
          Within (ConstructionLimit machine construction verification source trace) _ result :=
          reducePivot_within (hc.after hreaches) hready
        cases result with
        | error error =>
          refine ⟨weight rows cols p s1.diagonal.value + 1, .error error, fun fuel hfuel => ?_,
            hwithin⟩
          rw [reducePivots, hok]
          dsimp only
          rw [hrun fuel (by omega)]
        | ok s2 =>
          obtain ⟨hreaches2, hs2, hreduced2⟩ := hwithin
          obtain ⟨bound, result, hrest, hwithin⟩ := ih (hc.after (hreaches.trans hreaches2))
            hs2 hreduced2 (by omega)
          refine ⟨max (weight rows cols p s1.diagonal.value + 1) bound, result,
            fun fuel hfuel => ?_, ?_⟩
          · rw [reducePivots, hok]
            dsimp only
            rw [hrun fuel (by omega)]
            exact hrest fuel (by omega)
          · apply hwithin.imp
            rintro s3 ⟨hreaches3, hfinished⟩
            exact ⟨hreaches.trans (hreaches2.trans hreaches3), hfinished⟩

end Runs

end SmithConstructionState

section Whole

open SmithConstructionState

variable {machine : Machine} {construction : SmithConstructionBudget}
  {verification : ExactAlgebraBudget} {source : ExactIntegerMatrix} {trace : Trace}

/-- The scan of the source names the place of the entry that it reads. -/
theorem getD_entries {index : ℕ} (h : index < source.rows * source.cols) :
    source.entries.getD index 0 =
      source.value (index / max source.cols 1) (index % max source.cols 1) := by
  have hpos : 0 < source.cols := Nat.pos_of_ne_zero fun hzero => by
    rw [hzero, Nat.mul_zero] at h
    omega
  rw [max_eq_left hpos, ExactIntegerMatrix.value_of_lt
    ((Nat.div_lt_iff_lt_mul hpos).2 h) (Nat.mod_lt _ hpos), ExactIntegerMatrix.entry,
    Nat.div_add_mod']

/-- The entries of the source are part of the work plan. -/
theorem area_le_plannedWork (rows cols : ℕ) : rows * cols ≤ plannedWork rows cols := by
  have hcols : rows * cols ≤ rows * cols * cols := by
    rw [mul_assoc]
    exact Nat.mul_le_mul_left rows (Nat.le_mul_self cols)
  unfold plannedWork
  omega

theorem preflightSmithConstruction_within :
    Within (ConstructionLimit machine construction verification source trace) (fun _ => True)
      (machine.preflightSmithConstruction source construction verification) := by
  have hextent (n : ℕ) (phase : String) (hn : n ≤ retainedEntries source.rows source.cols) :
      Within (ConstructionLimit machine construction verification source trace) (· = n)
        (machine.checkedExtent n phase) :=
    checkedExtent_within fun h => Or.inr (Or.inl ⟨n, hn, h⟩)
  have hloop : Within (ConstructionLimit machine construction verification source trace)
      (fun steps => steps = source.entries.length)
      ((List.range source.entries.length).foldlM (fun steps index => do
        let requested ← machine.checkedCount (steps + 1) "smith construction source coefficient scan"
        refuseIf ((requested : ℕ∞) > construction.maxEntrySteps)
          (.smithConstructionEntryStepBudgetExceeded requested construction.maxEntrySteps)
        let magnitude := (source.entries.getD index 0).natAbs
        refuseIf ((magnitude : ℕ∞) > construction.maxAbsCoefficient)
          (.smithConstructionCoefficientMagnitudeExceeded .source (index / max source.cols 1)
            (index % max source.cols 1) magnitude construction.maxAbsCoefficient)
        pure requested) 0) := by
    apply Within.range_foldlM (I := fun index steps => steps = index) rfl
    intro index hindex steps hsteps
    subst hsteps
    rw [source.length_eq] at hindex
    have hplan := area_le_plannedWork source.rows source.cols
    apply Within.bind (checkedCount_within fun h => Or.inl ⟨_, by omega, h⟩)
    rintro _ rfl
    apply Within.bind (refuseIf_within fun h => ⟨rfl, h, Or.inl hindex⟩)
    intro _ _
    apply Within.bind (refuseIf_within fun h =>
      ⟨rfl, h, Or.inr (Or.inl ⟨rfl, congrArg Int.natAbs (getD_entries hindex)⟩)⟩)
    intro _ _
    exact Within.ok rfl
  have hentries := source.length_eq
  have hplan : retainedEntries source.rows source.cols = source.entries.length * 2 +
      source.rows * source.rows * 2 + source.cols * source.cols * 2 := by
    unfold retainedEntries
    omega
  rw [hplan] at hextent
  unfold Machine.preflightSmithConstruction
  apply Within.bind (Q := fun _ => True)
  · unfold ExactIntegerMatrix.ensureWithin
    apply (refuseIf_within _).imp fun _ _ => trivial
    exact fun h => h
  intro _ _
  apply Within.bind (refuseIf_within fun h => ⟨rfl, h.2, Or.inl ⟨rfl, h.1⟩⟩)
  intro _ _
  apply Within.bind hloop
  intro steps _
  apply Within.bind (hextent _ _ (by omega))
  rintro _ rfl
  apply Within.bind (hextent _ _ (by omega))
  rintro _ rfl
  apply Within.bind (refuseIf_within fun h => ⟨rfl, h⟩)
  intro _ _
  apply Within.bind (refuseIf_within fun h => ⟨rfl, h⟩)
  intro _ _
  apply Within.bind (refuseIf_within fun h => ⟨rfl, h⟩)
  intro _ _
  iterate 5 (apply Within.bind (hextent _ _ (by omega)); rintro _ rfl)
  apply Within.bind (refuseIf_within fun h => ⟨rfl, h, hplan.symm⟩)
  intro _ _
  apply Within.bind (refuseIf_within fun h => ⟨rfl, h⟩)
  intro _ _
  apply Within.bind (refuseIf_within fun h => ⟨rfl, h⟩)
  intro _ _
  exact Within.ok trivial

theorem identity_value (extent n : ℕ) (hn : n ≤ extent) :
    SameExtents (.zeroed extent extent) ((List.range n).foldl
      (fun matrix index => matrix.setEntry index index 1) (.zeroed extent extent)) ∧
    ∀ r c, ((List.range n).foldl (fun matrix index => matrix.setEntry index index 1)
      (ExactIntegerMatrix.zeroed extent extent)).value r c = if r = c ∧ r < n then 1 else 0 := by
  induction n with
  | zero => exact ⟨⟨rfl, rfl⟩, fun r c => by simp⟩
  | succ n ih =>
    obtain ⟨hsame, hvalue⟩ := ih (by omega)
    rw [List.range_succ, List.foldl_append, List.foldl_cons, List.foldl_nil]
    refine ⟨hsame, fun r c => ?_⟩
    rw [ExactIntegerMatrix.value_setEntry _ _ (lt_of_lt_of_eq hn hsame.1.symm)
      (lt_of_lt_of_eq hn hsame.2.symm), hvalue]
    grind

theorem tryIdentityMatrix_within {extent : ℕ} {phase : String}
    (hplan : extent * extent ≤ retainedEntries source.rows source.cols) :
    Within (ConstructionLimit machine construction verification source trace)
      (fun matrix => (matrix.rows = extent ∧ matrix.cols = extent) ∧
        matrix.toMatrix extent extent = 1)
      (machine.tryIdentityMatrix extent phase) := by
  unfold Machine.tryIdentityMatrix
  apply Within.bind (checkedExtent_within fun h => Or.inr (Or.inl ⟨_, hplan, h⟩))
  rintro _ rfl
  apply Within.bind (reserveExact_within fun h => h)
  intro _ _
  obtain ⟨hsame, hvalue⟩ := identity_value extent extent le_rfl
  apply Within.ok
  refine ⟨hsame, ?_⟩
  ext i j
  rw [ExactIntegerMatrix.toMatrix_apply, hvalue, Matrix.one_apply]
  apply if_congr _ rfl rfl
  rw [Fin.ext_iff]
  exact and_iff_left i.isLt

/-- The state before the first pivot satisfies the equations of the transforms. -/
theorem beginConstruction_within :
    Within (ConstructionLimit machine construction verification source trace)
      (fun s => Shaped source.rows source.cols construction s ∧ Transforms source s.witness)
      (machine.beginConstruction source construction verification) := by
  have hrows : source.rows * source.rows ≤ retainedEntries source.rows source.cols := by
    unfold retainedEntries
    omega
  have hcols : source.cols * source.cols ≤ retainedEntries source.rows source.cols := by
    unfold retainedEntries
    omega
  unfold Machine.beginConstruction
  apply Within.bind preflightSmithConstruction_within
  intro steps _
  unfold Machine.tryCloneMatrix
  rw [bind_assoc]
  apply Within.bind (reserveExact_within fun h => h)
  intro _ _
  rw [pure_bind]
  apply Within.bind (tryIdentityMatrix_within hrows)
  rintro left ⟨hleft, hleftOne⟩
  apply Within.bind (tryIdentityMatrix_within hrows)
  rintro leftInverse ⟨hleftInverse, hleftInverseOne⟩
  apply Within.bind (tryIdentityMatrix_within hcols)
  rintro right ⟨hright, hrightOne⟩
  apply Within.bind (tryIdentityMatrix_within hcols)
  rintro rightInverse ⟨hrightInverse, hrightInverseOne⟩
  apply Within.ok
  refine ⟨⟨⟨rfl, rfl⟩, hleft, hleftInverse, hright, hrightInverse, rfl⟩, ?_⟩
  constructor <;> dsimp only [witness]
  · rw [hleftOne, hleftInverseOne, Matrix.one_mul]
  · rw [hleftOne, hleftInverseOne, Matrix.one_mul]
  · rw [hrightOne, hrightInverseOne, Matrix.one_mul]
  · rw [hrightOne, hrightInverseOne, Matrix.one_mul]
  · rw [hleftOne, hrightOne, Matrix.one_mul, Matrix.mul_one]

theorem constructionLimit_of_verification {s : SmithConstructionState}
    (hreached : trace.reached s) {error : IntegralTopologyError}
    (h : VerificationLimit machine verification source s.witness error) :
    ConstructionLimit machine construction verification source trace error ∧
      error.failureClass = .unknown := by
  cases error <;> first | exact h.elim | exact ⟨h, rfl⟩ | skip
  · rcases h with ⟨n, hn, h⟩ | ⟨n, hn, h⟩
    · exact ⟨Or.inl ⟨n, hn, h⟩, rfl⟩
    · exact ⟨Or.inr (Or.inl ⟨n, hn, h⟩), rfl⟩
  · exact ⟨⟨s, hreached, h⟩, rfl⟩

/-- The final check accepts a state that satisfies the equations, within the limits. -/
theorem finishConstruction_within {s : SmithConstructionState} (hreached : trace.reached s)
    (hs : Shaped source.rows source.cols construction s) (h : Equations source s.witness) :
    Within (ConstructionLimit machine construction verification source trace)
      (fun constructed => constructed.verified.source = source ∧
        constructed.verified.witness = s.witness ∧
        constructed.elementaryOperations = s.elementaryOperations)
      (machine.finishConstruction source verification s) := by
  have hsettles := verifySmithNormalForm_settles machine source s.witness verification
  have hshapes : RightShapes source s.witness :=
    ⟨hs.diagonal, hs.left, hs.leftInverse, hs.right, hs.rightInverse⟩
  unfold Machine.finishConstruction
  dsimp only
  split
  case h_1 verified hverify =>
    have hverified : machine.verifySmithNormalForm source s.witness verification = .ok verified :=
      hverify
    rw [hverified] at hsettles
    exact ⟨hsettles.2.1, hsettles.2.2.1, rfl⟩
  case h_2 error hverify =>
    have hrefused : machine.verifySmithNormalForm source s.witness verification = .error error :=
      hverify
    rw [hrefused] at hsettles
    have hlimit := hsettles.resolve_right fun hrefuted => hrefuted.2 ⟨hshapes, h⟩
    obtain ⟨hconstruction, hclass⟩ := constructionLimit_of_verification hreached hlimit
    rw [hclass, if_neg (by decide)]
    exact hconstruction

theorem constructSmithNormalForm_of_reduced {fuel : ℕ} {start final : SmithConstructionState}
    (hstart : machine.beginConstruction source construction verification = .ok start)
    (hrun : reducePivots machine fuel (List.range (min source.rows source.cols)) start =
      some (.ok final)) :
    machine.constructSmithNormalForm fuel source construction verification =
      some (machine.finishConstruction source verification final) := by
  unfold Machine.constructSmithNormalForm
  rw [hstart]
  dsimp only
  rw [hrun]

/-- The construction ends, whatever the fuel beyond a bound, with a verified form or with a
refusal that names a limit. -/
theorem constructSmithNormalForm_within :
    ∃ bound result, (∀ fuel, bound ≤ fuel →
        machine.constructSmithNormalForm fuel source construction verification = some result) ∧
      Within (ConstructionLimit machine construction verification source
          (.ofConstruction machine source construction verification))
        (fun constructed => ∃ start final q,
          machine.beginConstruction source construction verification = .ok start ∧
          Reaches machine start final ∧ Finished source.rows source.cols construction q final ∧
          constructed.verified.source = source ∧ constructed.verified.witness = final.witness ∧
          constructed.elementaryOperations = final.elementaryOperations) result := by
  have hbegin : Within (ConstructionLimit machine construction verification source
      (.ofConstruction machine source construction verification)) _
      (machine.beginConstruction source construction verification) := beginConstruction_within
  cases hstart : machine.beginConstruction source construction verification with
  | error error =>
    rw [hstart] at hbegin
    refine ⟨0, .error error, fun fuel _ => ?_, hbegin⟩
    rw [Machine.constructSmithNormalForm, hstart]
  | ok start =>
    rw [hstart] at hbegin
    obtain ⟨hs, htransforms⟩ := hbegin
    have hcount : 0 + min source.rows source.cols = min source.rows source.cols :=
      Nat.zero_add _
    have hc := Trace.covers_ofConstruction hstart
    obtain ⟨bound, result, hrun, hwithin⟩ : ∃ bound result, _ ∧
        Within (ConstructionLimit machine construction verification source
          (.ofConstruction machine source construction verification)) _ result :=
      reducePivots_within hc hs (reduced_zero _) hcount
    rw [← List.range_eq_range'] at hrun
    cases result with
    | error error =>
      refine ⟨bound, .error error, fun fuel hfuel => ?_, hwithin⟩
      rw [Machine.constructSmithNormalForm, hstart]
      dsimp only
      rw [hrun fuel hfuel]
    | ok final =>
      obtain ⟨hreaches, q, hfinished⟩ := hwithin
      refine ⟨bound, machine.finishConstruction source verification final,
        fun fuel hfuel => ?_, ?_⟩
      · exact constructSmithNormalForm_of_reduced hstart (hrun fuel hfuel)
      · obtain ⟨hshaped, hfinal⟩ := hreaches.keeps hs htransforms
        apply (finishConstruction_within (hc.reached _ hreaches) hshaped
          ⟨hfinal, hfinished.canonical⟩).imp
        rintro constructed ⟨hsource, hwitness, hoperations⟩
        exact ⟨start, final, q, rfl, hreaches, hfinished, hsource, hwitness, hoperations⟩

/-- The unbounded machine with unlimited budgets refuses nothing. -/
theorem not_constructionLimit_unbounded (error : IntegralTopologyError) :
    ¬ ConstructionLimit .unbounded .unlimited .unlimited source .any error := by
  cases error <;> simp +contextual [ConstructionLimit, OverflowsAt, Machine.unbounded,
    SmithConstructionBudget.unlimited, ExactAlgebraBudget.unlimited]

theorem Trace.covers_any (s : SmithConstructionState) : Trace.any.Covers machine s :=
  ⟨fun _ _ => trivial, fun _ _ _ _ _ _ _ _ => trivial⟩

theorem ne_invariantLost_of_limit {error : IntegralTopologyError}
    (h : ConstructionLimit machine construction verification source trace error)
    (field : String) : error ≠ .smithConstructionInvariantLost field := by
  rintro rfl
  exact h

end Whole

end FrankenSim.Smith
