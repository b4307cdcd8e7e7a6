import FrankenSim.Restoration.Elastic

/-!
# What an elastic solve charges and returns

Each part of the solve stays within the units of the plan, and what it returns does not depend on
the budget, the clock or the gate.
-/
namespace FrankenSim.Restoration

open Library

variable {F : Type} {S : Setting F} {active : List ℕ} {limits : RestorationWorkLimits}
variable {mask : SkipMask}

theorem length_zipUpdate {α β : Type} (f : α → β → α) (as : List α) :
    ∀ bs : List β, (zipUpdate f as bs).length = as.length := by
  induction as with
  | nil => exact fun _ => rfl
  | cons a as ih =>
    intro bs
    cases bs with
    | nil => rfl
    | cons b bs => simp [zipUpdate, ih]

theorem length_clamp (x : List Binary64) : (clamp S x).length = x.length :=
  length_zipUpdate _ _ _

theorem length_stepPoint (diam : Binary64) (step : ℕ) (x gradient : List Binary64) :
    (stepPoint S diam step x gradient).length = x.length := by
  unfold stepPoint
  rw [length_clamp, length_zipUpdate]

theorem length_randomPoint (rng : Lcg) : (randomPoint S rng).1.length = S.domain.ranges.length := by
  have hfold (ranges : List (Binary64 × Binary64)) : ∀ acc : List Binary64 × Lcg,
      (ranges.foldl (randomRound S.ops) acc).1.length = acc.1.length + ranges.length := by
    induction ranges with
    | nil => exact fun _ => rfl
    | cons range ranges ih =>
      intro acc
      rw [List.foldl_cons, ih]
      simp only [randomRound, List.length_append, List.length_cons, List.length_nil]
      omega
  rw [randomPoint, hfold]
  simp

theorem cpEvery_bounds (ordinal : ℕ) (phase : String) :
    charges.Bounds 0 (fun _ => True) (fun _ => True) (cpEvery (F := F) ordinal phase) := by
  unfold cpEvery
  apply Grade.Bounds.ite
  · exact fun _ => cp_bounds phase
  · exact fun _ => .pure trivial

/-- A step that the budget does not watch. -/
theorem faulting_bounds {E α : Type} {r : Except E α} {Q : α → Prop} (h : ∀ a, r = .ok a → Q a) :
    charges.Bounds 0 Q (fun _ => True) (faulting r) := by
  apply Grade.Bounds.ofExcept
  · intro a ha
    cases r with
    | error e => cases ha
    | ok b => exact h a (by rw [← Except.ok.inj ha])
  · exact fun _ _ => trivial

theorem passRound_bounds (x : List Binary64) (acc : Binary64 × ℕ) (entry : ℕ × ℕ) :
    charges.Bounds 0 (fun _ => True) (fun _ => True) (passRound S x acc entry) := by
  apply Grade.Bounds.after (cpEvery_bounds _ _)
  intro _ _
  apply Grade.Bounds.after (faulting_bounds fun _ _ => trivial)
  intro gi _
  apply Grade.Bounds.after (faulting_bounds fun _ _ => trivial)
  intro total _
  exact .pure trivial

/-- An evaluation is one unit. -/
theorem charge_evaluations (phase : String) (n : ℕ) :
    charges.Bounds n (fun _ => True) (fun _ => True)
      (charge (E := ConError F) phase (n * RESTORATION_UNITS_CONSTRAINT_EVALUATION)) :=
  (charge_bounds _ _).mono (Nat.mul_one n).le

/-- A pass charges its active constraints. -/
theorem runTotalPass_bounds (x : List Binary64) (evals : ℕ) :
    charges.Bounds active.length (fun _ => True) (fun _ => True)
      (runTotalPass S active x evals) := by
  apply Grade.Bounds.after (cp_bounds _)
  intro _ _
  apply Grade.Bounds.after
    (Grade.Bounds.foldlM_free (fun acc entry _ _ => passRound_bounds x acc entry) trivial)
  intro acc _
  exact Grade.Bounds.before (charge_evaluations _ _) fun _ _ => .pure trivial

theorem probeRound_bounds (x : List Binary64) (h : Binary64) (acc : List Binary64 × ℕ) (k : ℕ) :
    charges.Bounds (active.length + active.length) (fun _ => True) (fun _ => True)
      (probeRound S active x h acc k) := by
  apply Grade.Bounds.after (cpEvery_bounds _ _)
  intro _ _
  apply Grade.Bounds.bind (runTotalPass_bounds _ _)
  rintro ⟨plus, evals⟩ _
  apply Grade.Bounds.before (runTotalPass_bounds _ _)
  rintro ⟨minus, evals'⟩ _
  exact .pure trivial

/-- The probes of a step charge two passes for each axis. -/
theorem runProbes_bounds (x : List Binary64) (h : Binary64) (evals : ℕ) :
    charges.Bounds (x.length * 2 * active.length) (fun _ => True) (fun _ => True)
      (runProbes S active x h evals) := by
  have hloop : charges.Bounds ((List.range x.length).length • (active.length + active.length))
      (fun _ => True) (fun _ => True) (runProbes S active x h evals) :=
    Grade.Bounds.foldlM (fun acc k _ _ => probeRound_bounds x h acc k) _ trivial
  apply hloop.mono
  rw [List.length_range, smul_eq_mul]
  apply le_of_eq
  ring

/-- The units of one step. -/
def stepUnits (dims active : ℕ) : ℕ := dims * 2 * active + active

/-- The steps of a start keep the dimension. -/
theorem runSteps_bounds (diam : Binary64) (remaining : ℕ) : ∀ step x v evals,
    charges.Bounds (remaining * stepUnits x.length active.length)
      (fun r => r.1.length = x.length) (fun _ => True)
        (runSteps S active diam remaining step x v evals) := by
  induction remaining with
  | zero => exact fun _ _ _ _ => .pure rfl
  | succ remaining ih =>
    intro step x v evals
    rw [Nat.succ_mul, Nat.add_comm]
    apply Grade.Bounds.after (cp_bounds _)
    intro _ _
    apply Grade.Bounds.ite
    · exact fun _ => .pure rfl
    · intro _
      rw [stepUnits, Nat.add_assoc]
      apply Grade.Bounds.bind (runProbes_bounds _ _ _)
      rintro ⟨gradient, evals⟩ _
      apply Grade.Bounds.ite
      · exact fun _ => .pure rfl
      · intro _
        apply Grade.Bounds.bind (runTotalPass_bounds _ _)
        rintro ⟨v, evals⟩ _
        have hrest := ih (step + 1) (stepPoint S diam step x gradient) v evals
        rw [length_stepPoint] at hrest
        exact hrest

theorem runDescentStart_bounds (seedX : List Binary64) (evals : ℕ) :
    charges.Bounds (descentUnits limits seedX.length active.length)
      (fun r => r.1.length = seedX.length) (fun _ => True)
        (runDescentStart S active seedX limits.stepsPerStart evals) := by
  rw [descentUnits, Nat.add_comm]
  apply Grade.Bounds.bind (runTotalPass_bounds _ _)
  rintro ⟨v, evals⟩ _
  rw [Nat.mul_comm]
  exact runSteps_bounds _ _ _ _ _ _

theorem completeStart_bounds :
    charges.Bounds 0 (fun _ => True) (fun _ => True) (completeStart (F := F)) :=
  fun _ => ⟨⟨le_rfl, rfl, fun _ h => h⟩, fun _ _ => trivial, fun _ _ => trivial⟩

theorem runStart_bounds {search : Search} (start : ℕ)
    (hsearch : search.bestX.length = S.domain.ranges.length) :
    charges.Bounds (descentUnits limits S.domain.ranges.length active.length)
      (fun search' => search'.bestX.length = S.domain.ranges.length) (fun _ => True)
        (runStart S active limits search start) := by
  apply Grade.Bounds.after (cp_bounds _)
  intro _ _
  have hseed : (if start = 0 then (search.bestX, search.rng)
      else randomPoint S search.rng).1.length = S.domain.ranges.length := by
    split_ifs
    · exact hsearch
    · exact length_randomPoint _
  have hdescent := @runDescentStart_bounds F S active limits
    (if start = 0 then (search.bestX, search.rng) else randomPoint S search.rng).1 search.evals
  rw [hseed] at hdescent
  apply Grade.Bounds.before hdescent
  rintro ⟨x, v, evals⟩ hx
  apply Grade.Bounds.after completeStart_bounds
  intro _ _
  apply Grade.Bounds.ite
  · exact fun _ => .pure hx
  · exact fun _ => .pure hsearch

/-- The constraints that a mask leaves active. -/
def activeIndices (mask : SkipMask) (n : ℕ) : List ℕ :=
  (List.range n).filter fun i => !mask.skipped.getD i false

theorem maskRound_bounds (n : ℕ) :
    charges.Bounds 0 (fun active => active = activeIndices mask n) (fun _ => True)
      ((List.range n).foldlM (maskRound (F := F) mask) []) := by
  apply Grade.Bounds.range_foldlM_free (I := fun n active => active = activeIndices mask n) rfl
  rintro i _ _ rfl
  apply Grade.Bounds.after (cpEvery_bounds _ _)
  intro _ _
  apply Grade.Bounds.pure
  rw [activeIndices, activeIndices, List.range_succ, List.filter_append]
  by_cases hskipped : mask.skipped.getD i false = true
  · rw [if_pos hskipped, List.filter_cons_of_neg, List.filter_nil, List.append_nil]
    rw [hskipped]
    decide
  · rw [if_neg hskipped, List.filter_cons_of_pos, List.filter_nil]
    rw [Bool.not_eq_true] at hskipped
    rw [hskipped]
    rfl

/-- The violations so far: one for each constraint, and zero for the skipped ones. -/
structure Recorded (mask : SkipMask) (n : ℕ) (r : List Binary64 × ℕ) : Prop where
  length : r.1.length = n
  zero : (∀ i < n, mask.skipped.getD i false = true) → ∀ violation ∈ r.1, violation = Binary64.zero

theorem violationRound_bounds (x : List Binary64) (evals n : ℕ) :
    charges.Bounds 0 (Recorded mask n) (fun _ => True)
      ((List.range n).foldlM (violationRound S mask x) ([], evals)) := by
  apply Grade.Bounds.range_foldlM_free
  · exact ⟨rfl, fun _ violation hmem => absurd hmem List.not_mem_nil⟩
  · rintro i _ acc ⟨hlength, hzero⟩
    apply Grade.Bounds.after (cpEvery_bounds _ _)
    intro _ _
    apply Grade.Bounds.ite
    · intro _
      apply Grade.Bounds.pure
      refine ⟨by simp [hlength], fun hskipped violation hmem => ?_⟩
      simp only [List.mem_append, List.mem_singleton] at hmem
      obtain hmem | rfl := hmem
      · exact hzero (fun j hj => hskipped j (by omega)) violation hmem
      · rfl
    · intro hactive
      apply Grade.Bounds.after (faulting_bounds fun _ _ => trivial)
      intro gi _
      apply Grade.Bounds.pure
      exact ⟨by simp [hlength], fun hskipped => absurd (hskipped i (by omega)) hactive⟩

/-- A checked total is finite, and the total of zeros is zero. -/
theorem total_spec {ops : Scalars} {violations : List Binary64} {total : Binary64}
    (h : violations.foldlM (checkedTotalViolation (F := F) ops) Binary64.zero = .ok total) :
    total.isFinite ∧ ((∀ violation ∈ violations, violation = Binary64.zero) →
      total = Binary64.zero) := by
  have hfold (l : List Binary64) : ∀ start : Binary64, start.isFinite →
      l.foldlM (checkedTotalViolation (F := F) ops) start = .ok total → total.isFinite ∧
        (start = Binary64.zero → (∀ violation ∈ l, violation = Binary64.zero) →
          total = Binary64.zero) := by
    induction l with
    | nil =>
      intro start hfinite hok
      obtain rfl := Except.ok.inj hok
      exact ⟨hfinite, fun hzero _ => hzero⟩
    | cons violation l ih =>
      intro start hfinite hok
      rw [List.foldlM_cons] at hok
      obtain ⟨next, hnext, hrest⟩ := bind_eq_ok hok
      unfold checkedTotalViolation at hnext
      dsimp only at hnext
      split at hnext
      case isFalse => cases hnext
      case isTrue hnextFinite =>
        obtain rfl := Except.ok.inj hnext
        obtain ⟨htotal, hzeros⟩ := ih _ hnextFinite hrest
        refine ⟨htotal, fun hstart hall => ?_⟩
        rw [List.forall_mem_cons] at hall
        apply hzeros _ hall.2
        rw [hstart, hall.1, ops.zero_add_zero]
  obtain ⟨hfinite, hzeros⟩ := hfold violations Binary64.zero (by decide) h
  exact ⟨hfinite, hzeros rfl⟩

/-- What every solution satisfies. -/
structure Solves (n : ℕ) (mask : SkipMask) (solution : ElasticSolution) : Prop where
  violations : solution.violations.length = n
  finite : solution.totalViolation.isFinite
  zero : (∀ i < n, mask.skipped.getD i false = true) → solution.totalViolation = Binary64.zero

/-- An elastic solve charges at most its units. -/
theorem runElastic_bounds (S : Setting F) (mask : SkipMask) (limits : RestorationWorkLimits) :
    charges.Bounds
      (elasticUnits limits S.domain.ranges.length S.specs.length
        (activeIndices mask S.specs.length).length)
      (Solves S.specs.length mask) (fun _ => True) (runElastic S mask limits) := by
  apply Grade.Bounds.after (cp_bounds _)
  intro _ _
  apply Grade.Bounds.after (maskRound_bounds _)
  rintro _ rfl
  have hunits : elasticUnits limits S.domain.ranges.length S.specs.length
      (activeIndices mask S.specs.length).length =
    S.specs.length + ((activeIndices mask S.specs.length).length +
      (limits.starts • descentUnits limits S.domain.ranges.length
        (activeIndices mask S.specs.length).length +
          (activeIndices mask S.specs.length).length)) := by
    rw [elasticUnits, smul_eq_mul]
    ring
  rw [hunits]
  apply Grade.Bounds.bind ((charge_bounds _ _).mono (Nat.mul_one _).le)
  intro _ _
  apply Grade.Bounds.bind (runTotalPass_bounds _ _)
  rintro ⟨seedV, evals⟩ _
  apply Grade.Bounds.bind (Grade.Bounds.range_foldlM
    (I := fun _ search => search.bestX.length = S.domain.ranges.length) (List.length_map _)
      fun start _ search hsearch => runStart_bounds start hsearch)
  intro search _
  apply Grade.Bounds.after (violationRound_bounds _ _ _)
  rintro ⟨violations, evals⟩ ⟨hlength, hzeros⟩
  apply Grade.Bounds.before (charge_evaluations _ _)
  intro _ _
  apply Grade.Bounds.after (faulting_bounds fun _ htotal => total_spec htotal)
  rintro total ⟨hfinite, hzero⟩
  exact .pure ⟨hlength, hfinite, fun hskipped => hzero (hzeros hskipped)⟩

section Determinism

theorem passRound_determined (x : List Binary64) (acc : Binary64 × ℕ) (entry : ℕ × ℕ) :
    (passRound S x acc entry).Determined := by
  apply Metered.Determined.bind (.unit _)
  intro _
  apply Metered.Determined.bind (.ofExcept _)
  intro gi
  apply Metered.Determined.bind (.ofExcept _)
  exact fun _ => .pure _

theorem runTotalPass_determined (x : List Binary64) (evals : ℕ) :
    (runTotalPass S active x evals).Determined := by
  apply Metered.Determined.bind (.unit _)
  intro _
  apply Metered.Determined.bind (.foldlM (fun acc entry => passRound_determined x acc entry) _)
  intro acc
  apply Metered.Determined.bind (.unit _)
  exact fun _ => .pure _

theorem runProbes_determined (x : List Binary64) (h : Binary64) (evals : ℕ) :
    (runProbes S active x h evals).Determined := by
  apply Metered.Determined.foldlM
  intro acc k
  apply Metered.Determined.bind (.unit _)
  intro _
  apply Metered.Determined.bind (runTotalPass_determined _ _)
  intro plus
  apply Metered.Determined.bind (runTotalPass_determined _ _)
  exact fun _ => .pure _

theorem runSteps_determined (diam : Binary64) (remaining : ℕ) : ∀ step x v evals,
    (runSteps S active diam remaining step x v evals).Determined := by
  induction remaining with
  | zero => exact fun _ _ _ _ => .pure _
  | succ remaining ih =>
    intro step x v evals
    apply Metered.Determined.bind (.unit _)
    intro _
    apply Metered.Determined.ite (.pure _)
    apply Metered.Determined.bind (runProbes_determined _ _ _)
    intro gradient
    apply Metered.Determined.ite (.pure _)
    apply Metered.Determined.bind (runTotalPass_determined _ _)
    exact fun _ => ih _ _ _ _

theorem runDescentStart_determined (seedX : List Binary64) (stepsPerStart evals : ℕ) :
    (runDescentStart S active seedX stepsPerStart evals).Determined := by
  apply Metered.Determined.bind (runTotalPass_determined _ _)
  exact fun _ => runSteps_determined _ _ _ _ _ _

theorem runStart_determined (search : Search) (start : ℕ) :
    (runStart S active limits search start).Determined := by
  apply Metered.Determined.bind (.unit _)
  intro _
  apply Metered.Determined.bind (runDescentStart_determined _ _ _)
  intro descent
  apply Metered.Determined.bind (.unit _)
  exact fun _ => .ite (.pure _) (.pure _)

theorem maskRound_determined (active : List ℕ) (i : ℕ) :
    (maskRound (F := F) mask active i).Determined := by
  apply Metered.Determined.bind (.unit _)
  exact fun _ => .pure _

theorem violationRound_determined (x : List Binary64) (acc : List Binary64 × ℕ) (i : ℕ) :
    (violationRound S mask x acc i).Determined := by
  apply Metered.Determined.bind (.unit _)
  intro _
  apply Metered.Determined.ite (.pure _)
  apply Metered.Determined.bind (.ofExcept _)
  exact fun _ => .pure _

/-- The solution of a subset is one, whatever the budget, the clock and the gate do. -/
theorem runElastic_determined : (runElastic S mask limits).Determined := by
  apply Metered.Determined.bind (.unit _)
  intro _
  apply Metered.Determined.bind (.foldlM maskRound_determined _)
  intro active
  apply Metered.Determined.bind (.unit _)
  intro _
  apply Metered.Determined.bind (runTotalPass_determined _ _)
  intro seed
  apply Metered.Determined.bind (.foldlM runStart_determined _)
  intro search
  apply Metered.Determined.bind (.foldlM (fun acc i => violationRound_determined _ acc i) _)
  intro violations
  apply Metered.Determined.bind (.unit _)
  intro _
  apply Metered.Determined.bind (.ofExcept _)
  exact fun _ => .pure _

end Determinism

end FrankenSim.Restoration
