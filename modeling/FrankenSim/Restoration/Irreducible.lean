import FrankenSim.Library.Deletion
import FrankenSim.Restoration.Diagnose

/-!
# A diagnosis stays within its plan and returns an irreducible core

The verdict on a subset does not depend on the run, so the solves of one diagnosis agree. The
filter keeps a core whose own solve is infeasible, and members without which it is feasible.
-/
namespace FrankenSim.Restoration

open Library

variable {F α β : Type} {S : Setting F} {limits : RestorationWorkLimits} {members : List ℕ}

section Verdicts

/-- What the solve of a subset can return. -/
def IsSolution (S : Setting F) (limits : RestorationWorkLimits) (members : List ℕ)
    (solution : ElasticSolution) : Prop :=
  ∃ run, (runElastic S (SkipMask.keepingOnly S.specs.length members) limits run).1 = .ok solution

def FoundFeasible (S : Setting F) (limits : RestorationWorkLimits) (members : List ℕ) : Prop :=
  ∃ solution, IsSolution S limits members solution ∧
    Binary64.le solution.totalViolation FEAS_TOL = true

def FoundInfeasible (S : Setting F) (limits : RestorationWorkLimits) (members : List ℕ) : Prop :=
  ∃ solution, IsSolution S limits members solution ∧
    Binary64.lt FEAS_TOL solution.totalViolation = true

theorem IsSolution.unique {solution solution' : ElasticSolution}
    (h : IsSolution S limits members solution) (h' : IsSolution S limits members solution') :
    solution = solution' := by
  obtain ⟨run, hrun⟩ := h
  obtain ⟨run', hrun'⟩ := h'
  exact runElastic_determined run run' _ _ hrun hrun'

theorem IsSolution.solves {solution : ElasticSolution} (h : IsSolution S limits members solution) :
    Solves S.specs.length (SkipMask.keepingOnly S.specs.length members) solution := by
  obtain ⟨run, hrun⟩ := h
  exact (runElastic_bounds S _ limits run).2.1 solution hrun

/-- A finite total that is not within the tolerance is above it. -/
theorem Solves.lt_total {n : ℕ} {mask : SkipMask} {solution : ElasticSolution}
    (h : Solves n mask solution) (hle : ¬ Binary64.le solution.totalViolation FEAS_TOL = true) :
    Binary64.lt FEAS_TOL solution.totalViolation = true := by
  have hnan := Binary64.isNan_of_isFinite h.finite
  have htol : FEAS_TOL.isNan = false := by decide
  rw [Binary64.le_iff hnan htol, not_le] at hle
  rwa [Binary64.lt_iff htol hnan]

end Verdicts

section Masks

/-- Nothing is active without members. -/
theorem keepingOnly_nil_getD {n i : ℕ} (hi : i < n) :
    (SkipMask.keepingOnly n []).skipped.getD i false = true := by
  simp [SkipMask.keepingOnly, hi]

/-- All constraints as members leave the mask of the base solve. -/
theorem keepingOnly_range_skipped (n : ℕ) :
    (SkipMask.keepingOnly n (List.range n)).skipped = List.replicate n false := by
  have hfold (m : ℕ) (hm : m ≤ n) :
      ((List.range m).foldl keepRound (List.replicate n true, 0)).1 =
        List.replicate m false ++ List.replicate (n - m) true := by
    induction m with
    | zero => rfl
    | succ m ih =>
      have hrest : n - m = n - (m + 1) + 1 := by omega
      have hskipped := ih (by omega)
      rw [hrest, List.replicate_succ] at hskipped
      rw [List.range_succ, List.foldl_append, List.foldl_cons, List.foldl_nil, keepRound, hskipped,
        List.replicate_succ']
      simp
  have hall := hfold n le_rfl
  rwa [Nat.sub_self, List.replicate_zero, List.append_nil] at hall

/-- The solve reads only the entries of a mask. -/
theorem runElastic_congr {mask mask' : SkipMask} (h : mask.skipped = mask'.skipped) :
    runElastic S mask limits = runElastic S mask' limits := by
  obtain ⟨skipped, count⟩ := mask
  obtain ⟨skipped', count'⟩ := mask'
  obtain rfl : skipped = skipped' := h
  rfl

theorem length_activeIndices_le (mask : SkipMask) (n : ℕ) : (activeIndices mask n).length ≤ n := by
  apply (List.length_filter_le _ _).trans
  rw [List.length_range]

theorem activeIndices_of_all {mask : SkipMask} {n : ℕ}
    (h : mask.skipped = List.replicate n false) : (activeIndices mask n).length = n := by
  rw [activeIndices, List.filter_eq_self.2, List.length_range]
  intro i hi
  rw [List.mem_range] at hi
  simp [h, hi]

theorem elasticUnits_mono {dims total active active' : ℕ} (h : active ≤ active') :
    elasticUnits limits dims total active ≤ elasticUnits limits dims total active' := by
  have hsteps : dims * 2 * active ≤ dims * 2 * active' := Nat.mul_le_mul_left _ h
  have hdescent : descentUnits limits dims active ≤ descentUnits limits dims active' := by
    apply Nat.add_le_add _ h
    exact Nat.mul_le_mul_right _ (Nat.add_le_add hsteps h)
  have hstarts := Nat.mul_le_mul_right limits.starts hdescent
  unfold elasticUnits
  omega

end Masks

section Steps

/-- What a diagnosis has charged and how many subsets it has solved. -/
def progress : Grade (ℕ × ℕ) Diagnosing where
  moved k d d' := charges.moved k.1 d.run d'.run ∧ d'.subsetSolves ≤ d.subsetSolves + k.2
  refl d := ⟨charges.refl d.run, le_rfl⟩
  mono hk h := ⟨charges.mono hk.1 h.1, h.2.trans (Nat.add_le_add_left hk.2 _)⟩
  trans := by
    rintro k k' d d' d'' ⟨hcharges, hsolves⟩ ⟨hcharges', hsolves'⟩
    refine ⟨charges.trans hcharges hcharges', ?_⟩
    rw [Prod.snd_add]
    omega

/-- An early end that is not the final assertion. -/
def NotAsserted (halt : Halt F) : Prop := halt ≠ .panicked ASSERTION

theorem onRun_bounds {k : ℕ} {Q : α → Prop} {m : Stopped (ConError F) α}
    (h : charges.Bounds k Q (fun _ => True) m) : progress.Bounds (k, 0) Q NotAsserted (onRun m) := by
  apply h.zoom
  · exact fun d run hmoved => ⟨hmoved, le_rfl⟩
  · rintro e _ ⟨⟩

theorem onRun_free {Q : α → Prop} {m : Stopped (ConError F) α}
    (h : charges.Bounds 0 Q (fun _ => True) m) : progress.Bounds 0 Q NotAsserted (onRun m) :=
  onRun_bounds h

/-- The units of a subset solve, at most. -/
def subsetUnits (S : Setting F) (limits : RestorationWorkLimits) : ℕ :=
  elasticUnits limits S.domain.ranges.length S.specs.length S.specs.length

/-- A subset solve is one more solve and returns a solution. -/
theorem verifySubset_bounds (members : List ℕ) :
    progress.Bounds (subsetUnits S limits, 1) (IsSolution S limits members) NotAsserted
      (verifySubset S limits members) := by
  apply Grade.Bounds.after (onRun_free (cp_bounds _))
  intro _ _
  have hsolve := (runElastic_bounds S (SkipMask.keepingOnly S.specs.length members) limits).mono
    (elasticUnits_mono (length_activeIndices_le _ _))
  apply (hsolve.returned.imp fun solution hsolution => hsolution.2).zoom
  · rintro d run ⟨hcharged, hallowance, hgo⟩
    exact ⟨⟨hcharged, hallowance, hgo⟩, le_rfl⟩
  · rintro e _ ⟨⟩

/-- Each round of the filter is one solve; the rest of the core stays infeasible. -/
theorem deletionFilter_bounds (n : ℕ) : ∀ core k, core.length - k ≤ n →
    core.Sublist (List.range S.specs.length) → FoundInfeasible S limits core →
      (PassesBelow (FoundFeasible S limits) (List.range S.specs.length) →
        NeededBefore (FoundFeasible S limits) k core) →
          progress.Bounds (n • (subsetUnits S limits, 1))
            (fun core' => core'.Sublist (List.range S.specs.length) ∧
              FoundInfeasible S limits core' ∧
                (PassesBelow (FoundFeasible S limits) (List.range S.specs.length) →
                  ∀ i < core'.length, FoundFeasible S limits (core'.eraseIdx i)))
            NotAsserted (deletionFilter S limits core k) := by
  induction n with
  | zero =>
    intro core k hn hsub hinfeasible hneeded
    rw [deletionFilter, if_neg (by omega)]
    exact .pure ⟨hsub, hinfeasible, fun hbelow => (hneeded hbelow).all (by omega)⟩
  | succ n ih =>
    intro core k hn hsub hinfeasible hneeded
    rw [deletionFilter]
    apply Grade.Bounds.ite
    · intro hk
      apply Grade.Bounds.after (onRun_free (cp_bounds _))
      intro _ _
      rw [succ_nsmul']
      apply Grade.Bounds.bind (verifySubset_bounds _)
      intro without hwithout
      apply Grade.Bounds.ite
      · intro hle
        apply ih core (k + 1) (by omega) hsub hinfeasible
        exact fun hbelow => (hneeded hbelow).keep ⟨without, hwithout, hle⟩
      · intro hle
        have hlength := List.length_eraseIdx_of_lt hk
        apply ih (core.eraseIdx k) k (by omega) ((List.eraseIdx_sublist core k).trans hsub)
          ⟨without, hwithout, hwithout.solves.lt_total hle⟩
        exact fun hbelow => (hneeded hbelow).drop hbelow hsub hk
    · intro hk
      exact .pure ⟨hsub, hinfeasible, fun hbelow => (hneeded hbelow).all (by omega)⟩

/-- A core whose solve is infeasible has members. -/
theorem FoundInfeasible.ne_nil (h : FoundInfeasible S limits members) : members ≠ [] := by
  rintro rfl
  obtain ⟨solution, hsolution, hlt⟩ := h
  have hzero := hsolution.solves.zero fun i hi => keepingOnly_nil_getD hi
  rw [hzero] at hlt
  exact absurd hlt (by decide)

theorem sampleChecks_bounds (relax : List (ℕ × Binary64)) (drop : Option ℕ) (x : List Binary64)
    (entries : List (ConstraintSpec × ℕ)) : ∀ performed,
      charges.Bounds 0 (fun r => r.2 ≤ performed + entries.length) (fun _ => True)
        (sampleChecks S relax drop x entries performed) := by
  induction entries with
  | nil => exact fun performed => .pure le_rfl
  | cons entry entries ih =>
    obtain ⟨spec, i⟩ := entry
    intro performed
    rw [List.length_cons]
    apply Grade.Bounds.after (cpEvery_bounds _ _)
    intro _ _
    apply Grade.Bounds.ite
    · exact fun _ => (ih performed).imp fun r hr => by omega
    · intro _
      apply Grade.Bounds.after (faulting_bounds fun _ _ => trivial)
      intro gi _
      apply Grade.Bounds.ite
      · exact fun _ => .pure (by simp only; omega)
      · exact fun _ => (ih (performed + 1)).imp fun r hr => by omega

/-- A sample charges at most one evaluation for each constraint. -/
theorem sampleRound_bounds (relax : List (ℕ × Binary64)) (drop : Option ℕ) (acc : Lcg × ℕ)
    (sample : ℕ) : charges.Bounds S.specs.length (fun _ => True) (fun _ => True)
      (sampleRound S relax drop acc sample) := by
  apply Grade.Bounds.after (cpEvery_bounds _ _)
  intro _ _
  apply Grade.Bounds.after (sampleChecks_bounds _ _ _ _ _)
  rintro ⟨ok, performed⟩ hperformed
  rw [List.length_zipIdx, Nat.zero_add] at hperformed
  exact ((charge_evaluations _ _).before fun _ _ => .pure trivial).mono hperformed

/-- An estimate charges its samples. -/
theorem feasibleFraction_bounds (relax : List (ℕ × Binary64)) (drop : Option ℕ) (samples : ℕ) :
    charges.Bounds (samples * S.specs.length) (fun _ => True) (fun _ => True)
      (feasibleFraction S relax drop samples) := by
  apply Grade.Bounds.before (Q := fun _ => True)
  · apply Grade.Bounds.range_foldlM (I := fun _ _ => True) trivial
    exact fun sample _ acc _ => sampleRound_bounds relax drop acc sample
  · rintro ⟨_, hits⟩ _
    exact .pure trivial

/-- The units of one estimate. -/
def estimateUnits (S : Setting F) (limits : RestorationWorkLimits) : ℕ :=
  limits.feasibilitySamples * S.specs.length

theorem relaxRound_bounds (i : ℕ) (scale : Binary64) (repairs : List RepairAction)
    (factor : Binary64) : progress.Bounds (estimateUnits S limits, 0) (fun _ => True) NotAsserted
      (relaxRound S limits i scale repairs factor) := by
  apply Grade.Bounds.after (onRun_free (faulting_bounds fun _ _ => trivial))
  intro _ _
  exact (onRun_bounds (feasibleFraction_bounds _ _ _)).before fun _ _ => .pure trivial

/-- The repairs of one member are at most three estimates. -/
theorem repairRound_bounds (violations : List Binary64) (repairs : List RepairAction) (i : ℕ) :
    progress.Bounds (3 • (estimateUnits S limits, 0)) (fun _ => True) NotAsserted
      (repairRound S limits violations repairs i) := by
  apply Grade.Bounds.after (onRun_free (cp_bounds _))
  intro _ _
  rw [succ_nsmul]
  apply Grade.Bounds.bind (Q := fun _ => True)
  · exact Grade.Bounds.foldlM (l := [_, _])
      (fun repairs factor _ _ => relaxRound_bounds i _ repairs factor) repairs trivial
  · intro repairs _
    apply Grade.Bounds.ite
    · intro _
      exact (onRun_bounds (feasibleFraction_bounds _ _ _)).before fun _ _ => .pure trivial
    · exact fun _ => .pure trivial

end Steps

section Diagnoses

variable {mask : SkipMask} {plan : RestorationWorkPlan}

/-- A core that cannot lose a member: its own solve is infeasible, and each smaller one is
feasible when the verdict is monotone. -/
structure Irreducible (S : Setting F) (limits : RestorationWorkLimits) (core : List ℕ) : Prop where
  ne_nil : core ≠ []
  ascending : core.Pairwise (· < ·)
  lt_length : ∀ i ∈ core, i < S.specs.length
  infeasible : FoundInfeasible S limits core
  minimal : PassesBelow (FoundFeasible S limits) (List.range S.specs.length) →
    ∀ i < core.length, FoundFeasible S limits (core.eraseIdx i)

theorem support_sublist (violations : List Binary64) :
    (support violations).Sublist (List.range violations.length) := by
  have hsub := (List.filter_sublist (p := fun entry : Binary64 × ℕ => Binary64.lt FEAS_TOL entry.1)
    (l := violations.zipIdx)).map Prod.snd
  rwa [List.zipIdx_map_snd, ← List.range_eq_range'] at hsub

theorem currentReceipt_bounds :
    progress.Bounds 0 (fun _ => True) NotAsserted (currentReceipt (F := F) plan) := by
  intro d
  refine ⟨progress.refl d, fun _ _ => trivial, ?_⟩
  rintro e ⟨⟩

/-- The assertion holds of every solve of an infeasible subset. -/
theorem assertInfeasible_bounds {solution : ElasticSolution}
    (h : FoundInfeasible S limits members) (hsolution : IsSolution S limits members solution) :
    progress.Bounds 0 (fun _ => True) NotAsserted (assertInfeasible (F := F) solution) := by
  obtain ⟨solution', hsolution', hlt⟩ := h
  obtain rfl := hsolution.unique hsolution'
  apply Grade.Bounds.ofExcept fun _ _ => trivial
  intro e he
  rw [refuseWhen, if_neg (not_not_intro hlt)] at he
  cases he

theorem rank_bounds (repairs : List RepairAction) :
    progress.Bounds 0 (fun _ => True) NotAsserted
      (Metered.ofExcept ((rank repairs).mapError (Halt.panicked (F := F)))) := by
  apply Grade.Bounds.ofExcept fun _ _ => trivial
  intro e he
  unfold rank at he
  split at he
  · obtain rfl := Except.error.inj he
    intro hpanic
    exact absurd (Halt.panicked.inj hpanic) (by decide)
  · cases he

/-- The units of a whole diagnosis, and its subset solves. -/
def diagnosisUnits (S : Setting F) (limits : RestorationWorkLimits) : ℕ × ℕ :=
  (subsetUnits S limits, 0) + ((subsetUnits S limits, 1) +
    (S.specs.length • (subsetUnits S limits, 1) + ((subsetUnits S limits, 1) +
      S.specs.length • (3 • (estimateUnits S limits, 0)))))

theorem diagnose_bounds (S : Setting F) (plan : RestorationWorkPlan)
    (hmask : mask.skipped = List.replicate S.specs.length false) :
    progress.Bounds (diagnosisUnits S plan.limits)
      (fun diagnosis => diagnosis.feasible = false → Irreducible S plan.limits diagnosis.core)
      NotAsserted (diagnose S mask plan) := by
  have hfull : runElastic S mask plan.limits =
      runElastic S (SkipMask.keepingOnly S.specs.length (List.range S.specs.length)) plan.limits :=
    runElastic_congr (hmask.trans (keepingOnly_range_skipped _).symm)
  have hbase := runElastic_bounds S mask plan.limits
  rw [activeIndices_of_all hmask, hfull] at hbase
  unfold diagnose
  rw [hfull]
  apply Grade.Bounds.bind (onRun_bounds hbase.returned)
  rintro base ⟨hsolves, hsolution⟩
  have hbaseSolution : IsSolution S plan.limits (List.range S.specs.length) base := hsolution
  apply Grade.Bounds.ite
  · intro _
    apply Grade.Bounds.mono _ (zero_le)
    apply Grade.Bounds.before currentReceipt_bounds
    exact fun work _ => .pure fun hfeasible => Bool.noConfusion hfeasible
  · intro hbaseAbove
    have hwhole : FoundInfeasible S plan.limits (List.range S.specs.length) :=
      ⟨base, hbaseSolution, hbaseSolution.solves.lt_total hbaseAbove⟩
    apply Grade.Bounds.bind (verifySubset_bounds _)
    intro supported hsupported
    have hcandidate : (support base.violations).Sublist (List.range S.specs.length) := by
      rw [← hsolves.violations]
      exact support_sublist _
    have hstart : ∀ start, start = (if Binary64.le supported.totalViolation FEAS_TOL
        then List.range S.specs.length else support base.violations) →
          start.Sublist (List.range S.specs.length) ∧ FoundInfeasible S plan.limits start := by
      rintro _ rfl
      split
      case isTrue => exact ⟨List.Sublist.refl _, hwhole⟩
      case isFalse habove =>
        exact ⟨hcandidate, supported, hsupported, hsupported.solves.lt_total habove⟩
    obtain ⟨hsub, hinfeasible⟩ := hstart _ rfl
    have hlength := hsub.length_le
    rw [List.length_range] at hlength
    apply Grade.Bounds.bind (deletionFilter_bounds S.specs.length _ 0 (by omega) hsub hinfeasible
      fun _ => neededBefore_zero)
    rintro core ⟨hcore, hcoreInfeasible, hminimal⟩
    apply Grade.Bounds.bind (verifySubset_bounds _)
    intro verifiedCore hverified
    apply Grade.Bounds.after (assertInfeasible_bounds hcoreInfeasible hverified)
    intro _ _
    have hrepairs := Grade.Bounds.foldlM (l := core) (R := fun _ => True) (fun repairs i _ _ =>
      @repairRound_bounds F S plan.limits base.violations repairs i) [] trivial
    have hcoreLength := hcore.length_le
    rw [List.length_range] at hcoreLength
    apply Grade.Bounds.before (hrepairs.mono (nsmul_le_nsmul_left zero_le hcoreLength))
    intro repairs _
    apply Grade.Bounds.after (rank_bounds repairs)
    intro ranked _
    apply Grade.Bounds.after currentReceipt_bounds
    intro work _
    exact .pure fun _ => ⟨hcoreInfeasible.ne_nil, List.pairwise_lt_range.sublist hcore,
      fun i hi => List.mem_range.1 (hcore.subset hi), hcoreInfeasible, hminimal⟩

end Diagnoses

end FrankenSim.Restoration
