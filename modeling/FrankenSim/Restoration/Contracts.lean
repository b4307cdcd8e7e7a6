import FrankenSim.Restoration.Irreducible
import Mathlib.Data.Bool.Count

/-!
# The contracts of the entry points

What is prepared and admitted is enough for the whole run, whose result is then that of the
layers below.
-/
namespace FrankenSim.Restoration

open Library

variable {F : Type} {S : Setting F} {cx : Cx} {limits : RestorationWorkLimits} {skip : List ℕ}
variable {mask : SkipMask} {plan : RestorationWorkPlan} {n planned : ℕ} {budget : AdmittedBudget}

section Masks

/-- A mask counts its skipped entries. -/
structure Counts (n : ℕ) (mask : SkipMask) : Prop where
  length : mask.skipped.length = n
  count : mask.skipped.count true = mask.skippedCount

theorem canonicalSkipMask_counts
    (h : (canonicalSkipMask n skip : Except (ConError F) SkipMask) = .ok mask) :
    Counts n mask := by
  have hfold : ∀ start : SkipMask, Counts n start → ∀ skip : List ℕ,
      skip.foldlM (skipRound (F := F) n) start = .ok mask → Counts n mask := by
    intro start hstart skip
    induction skip generalizing start with
    | nil =>
      intro hok
      obtain rfl := Except.ok.inj hok
      exact hstart
    | cons index skip ih =>
      intro hok
      rw [List.foldlM_cons] at hok
      obtain ⟨next, hnext, hrest⟩ := bind_eq_ok hok
      obtain ⟨_, hrange, hnext⟩ := bind_eq_ok hnext
      obtain ⟨_, hfresh, hnext⟩ := bind_eq_ok hnext
      obtain rfl := Except.ok.inj hnext
      rw [refuseWhen_ok, not_le] at hrange
      rw [refuseWhen_ok, Bool.not_eq_true] at hfresh
      refine ih _ ⟨?_, ?_⟩ hrest
      · rw [List.length_set]
        exact hstart.length
      · have hindex : index < start.skipped.length := hstart.length.symm ▸ hrange
        rw [List.getD_eq_getElem _ _ hindex] at hfresh
        rw [List.count_set hindex, hfresh, hstart.count]
        simp
  apply hfold ⟨List.replicate n false, 0⟩ ⟨List.length_replicate, ?_⟩ skip h
  rw [List.count_replicate]
  rfl

/-- The active constraints are those that are not counted. -/
theorem Counts.length_activeIndices (h : Counts n mask) :
    (activeIndices mask n).length = n - mask.skippedCount := by
  have hmap : (List.range n).map (fun i => mask.skipped.getD i false) = mask.skipped := by
    apply List.ext_getElem
    · simp [h.length]
    · intro i hi hi'
      simp [hi']
  have hcount : (activeIndices mask n).length = mask.skipped.count false := by
    rw [activeIndices, ← List.countP_eq_length_filter]
    conv_rhs => rw [← hmap, List.count, List.countP_map]
    apply List.countP_congr
    intro i _
    simp
  have hboth := List.count_true_add_count_false mask.skipped
  rw [h.length, h.count] at hboth
  omega

end Masks

section Admission

theorem validateDomain_length {dimension : ℕ} (h : validateDomain S = .ok dimension) :
    S.domain.ranges.length = dimension := by
  unfold validateDomain at h
  split at h
  · obtain ⟨_, hlength, h⟩ := bind_eq_ok h
    obtain ⟨_, _, h⟩ := bind_eq_ok h
    obtain rfl := Except.ok.inj h
    rw [refuseWhen_ok, not_not] at hlength
    exact hlength
  · cases h
  · cases h

/-- What is prepared: the mask of the skipped constraints and the plan for its counts. -/
theorem prepare_spec (h : prepare S skip limits = .ok (mask, plan)) :
    canonicalSkipMask (F := F) S.specs.length skip = .ok mask ∧
      Declares ⟨S.domain.ranges.length, S.specs.length, mask.skippedCount, limits⟩ plan := by
  obtain ⟨dimension, hdomain, h⟩ := bind_eq_ok h
  obtain ⟨mask', hmask, h⟩ := bind_eq_ok h
  obtain ⟨_, _, h⟩ := bind_eq_ok h
  obtain ⟨_, _, h⟩ := bind_eq_ok h
  obtain ⟨plan', hplan, h⟩ := bind_eq_ok h
  obtain ⟨rfl, rfl⟩ := Prod.mk.inj (Except.ok.inj h)
  rw [validateDomain_length hdomain]
  exact ⟨hmask, plan_declares hplan⟩

/-- An admitted budget has charged nothing, and its quota covers the plan. -/
theorem admitAmbient_spec (h : AdmittedBudget.admitAmbient cx planned = .ok budget)
    (hplanned : planned < 2 ^ 64) (observed starts : ℕ) :
    budget.costCharged = 0 ∧ planned ≤ (⟨cx, observed, budget, starts⟩ : Run).allowance ∧
      ¬ (⟨cx, observed, budget, starts⟩ : Run).StoppedOnCost := by
  have hadmitted : AdmittedBudget.admitWith cx.budget planned cx.timeSource = .ok budget := by
    unfold AdmittedBudget.admitAmbient at h
    split at h
    · cases h
    · exact h
  obtain ⟨_, _, hadmitted⟩ := bind_eq_ok hadmitted
  obtain ⟨_, hquota, hadmitted⟩ := bind_eq_ok hadmitted
  obtain rfl := Except.ok.inj hadmitted
  refine ⟨rfl, ?_, ?_⟩
  · simp only [Run.allowance]
    cases hcost : cx.budget.costQuota with
    | none =>
      rw [Option.getD_none]
      omega
    | some quota =>
      simp only [admitCost, hcost, refuseWhen_ok, not_lt] at hquota
      rw [Option.getD_some]
      omega
  · rintro ⟨refusal, hnone, _⟩
    cases hnone

end Admission

/-- The units of a diagnosis are those of its plan. -/
theorem diagnosisUnits_le {shape : RestorationWorkShape} (h : Declares shape plan)
    (hskipped : shape.skippedCount = 0) (hdims : shape.dimensions = S.domain.ranges.length)
    (htotal : shape.constraintsTotal = S.specs.length) :
    diagnosisUnits S shape.limits ≤ (plan.totalWorkUnits, S.specs.length + 2) := by
  have hplan := h.total
  rw [hskipped, Nat.sub_zero, hdims, htotal] at hplan
  constructor
  · simp only [diagnosisUnits, subsetUnits, estimateUnits, Prod.smul_mk, Prod.mk_add_mk,
      smul_eq_mul, hplan]
    nlinarith [Nat.zero_le (S.specs.length *
      elasticUnits shape.limits S.domain.ranges.length S.specs.length S.specs.length)]
  · simp only [diagnosisUnits, Prod.smul_mk, Prod.mk_add_mk, smul_eq_mul]
    omega

/-- The run that an admitted elastic solve leaves. -/
theorem elasticSolve_run (hprepare : prepare S skip .default = .ok (mask, plan))
    (hadmitted : AdmittedBudget.admitAmbient cx plan.totalWorkUnits = .ok budget) :
    (elasticSolve S skip cx).2 = some (runElastic S mask plan.limits ⟨cx, 0, budget, 0⟩).2 := by
  unfold elasticSolve
  simp only [hprepare, hadmitted]
  split
  case h_1 hrun => rw [hrun]
  case h_2 hrun => rw [hrun]

/-- An elastic solve stays within the base phase and the starts of its plan. -/
theorem elasticSolve_within {run : Run} (hprepare : prepare S skip .default = .ok (mask, plan))
    (hrun : (elasticSolve S skip cx).2 = some run) :
    run.budget.costCharged ≤ plan.basePhaseUnits + plan.limits.starts * plan.descentEvalsPerStart ∧
      ¬ run.StoppedOnCost := by
  obtain ⟨hmask, hdeclares⟩ := prepare_spec hprepare
  have hactive := (canonicalSkipMask_counts hmask).length_activeIndices
  cases hadmitted : AdmittedBudget.admitAmbient cx plan.totalWorkUnits with
  | error refusal =>
    unfold elasticSolve at hrun
    simp only [hprepare, hadmitted] at hrun
    cases hrun
  | ok budget =>
    rw [elasticSolve_run hprepare hadmitted, Option.some.injEq] at hrun
    obtain ⟨hcharged, hcovers, hgoing⟩ := admitAmbient_spec hadmitted hdeclares.total_lt 0 0
    obtain ⟨hspent, _, hgo⟩ := (runElastic_bounds S mask plan.limits ⟨cx, 0, budget, 0⟩).1
    rw [hrun] at hspent hgo
    have hbase := hdeclares.base
    have htotal := hdeclares.total
    simp only at hbase htotal
    have hlimits : plan.limits = .default := hdeclares.limits
    rw [hlimits, hactive] at hspent hgo
    simp only [hcharged] at hspent hgo
    rw [hlimits]
    exact ⟨by omega, hgo (by omega) hgoing⟩

/-- What an admitted diagnosis leaves and returns. -/
theorem diagnoseInfeasibility_run (hprepare : prepare S [] .default = .ok (mask, plan))
    (hadmitted : AdmittedBudget.admitAmbient cx plan.totalWorkUnits = .ok budget) :
    (diagnoseInfeasibility S cx).2 = some (diagnose S mask plan ⟨⟨cx, 0, budget, 0⟩, 0⟩).2 ∧
      (∀ diagnosis, (diagnoseInfeasibility S cx).1 = .ok diagnosis →
        (diagnose S mask plan ⟨⟨cx, 0, budget, 0⟩, 0⟩).1 = .ok diagnosis) ∧
      ∀ what, (diagnoseInfeasibility S cx).1 = .error (.panicked what) →
        (diagnose S mask plan ⟨⟨cx, 0, budget, 0⟩, 0⟩).1 = .error (.panicked what) := by
  unfold diagnoseInfeasibility
  simp only [hprepare, hadmitted]
  split
  case h_1 hrun => simp [hrun]
  case h_2 stop d hrun =>
    refine ⟨by rw [hrun], ?_, ?_⟩
    · rintro diagnosis ⟨⟩
    · intro what hwhat
      cases stop <;> simp [stopped] at hwhat
  case h_3 hrun => simp [hrun]

/-- An admitted plan is enough for a diagnosis, which solves few subsets, never fails its
assertion and returns an irreducible core. -/
theorem diagnoseInfeasibility_within (hprepare : prepare S [] .default = .ok (mask, plan)) :
    (∀ d, (diagnoseInfeasibility S cx).2 = some d →
      d.run.budget.costCharged ≤ plan.totalWorkUnits ∧ ¬ d.run.StoppedOnCost ∧
        d.subsetSolves ≤ S.specs.length + 2) ∧
    (diagnoseInfeasibility S cx).1 ≠ .error (.panicked ASSERTION) ∧
    ∀ diagnosis, (diagnoseInfeasibility S cx).1 = .ok diagnosis → diagnosis.feasible = false →
      Irreducible S plan.limits diagnosis.core := by
  obtain ⟨hmask, hdeclares⟩ := prepare_spec hprepare
  obtain rfl := Except.ok.inj hmask
  cases hadmitted : AdmittedBudget.admitAmbient cx plan.totalWorkUnits with
  | error refusal =>
    have hrefused : diagnoseInfeasibility S cx =
        (.error (.refused refusal (.refusedAdmission plan)), none) := by
      unfold diagnoseInfeasibility
      simp only [hprepare, hadmitted]
    rw [hrefused]
    refine ⟨?_, ?_, ?_⟩
    · rintro d ⟨⟩
    · rintro ⟨⟩
    · rintro diagnosis ⟨⟩
  | ok budget =>
    obtain ⟨hleft, hreturned, hpanicked⟩ := diagnoseInfeasibility_run hprepare hadmitted
    obtain ⟨hcharged, hcovers, hgoing⟩ := admitAmbient_spec hadmitted hdeclares.total_lt 0 0
    have hunits := diagnosisUnits_le (S := S) hdeclares rfl rfl rfl
    rw [← hdeclares.limits] at hunits
    have hmasked : (⟨List.replicate S.specs.length false, 0⟩ : SkipMask).skipped =
        List.replicate S.specs.length false := rfl
    obtain ⟨⟨hcost, hsolves⟩, hvalue, hhalt⟩ :=
      (diagnose_bounds S plan hmasked).mono hunits ⟨⟨cx, 0, budget, 0⟩, 0⟩
    obtain ⟨hspent, _, hgo⟩ := hcost
    refine ⟨?_, ?_, ?_⟩
    · intro d hd
      rw [hleft, Option.some.injEq] at hd
      rw [hd] at hspent hgo hsolves
      simp only [hcharged, Nat.zero_add] at hspent hgo hsolves
      exact ⟨hspent, hgo hcovers hgoing, hsolves⟩
    · intro hpanic
      exact hhalt _ (hpanicked _ hpanic) rfl
    · exact fun diagnosis hdiagnosis => hvalue diagnosis (hreturned diagnosis hdiagnosis)

/-- A diagnosis stays within its plan, solves few subsets, never fails its assertion and returns
an irreducible core; an elastic solve stays within its part of the plan. -/
theorem diagnoseInfeasibility_irreducible (S : Setting F) (cx : Cx) :
    (∀ mask plan, prepare S [] .default = .ok (mask, plan) →
      (∀ d, (diagnoseInfeasibility S cx).2 = some d →
        d.run.budget.costCharged ≤ plan.totalWorkUnits ∧ ¬ d.run.StoppedOnCost ∧
          d.subsetSolves ≤ S.specs.length + 2) ∧
      (diagnoseInfeasibility S cx).1 ≠ .error (.panicked ASSERTION) ∧
      ∀ diagnosis, (diagnoseInfeasibility S cx).1 = .ok diagnosis → diagnosis.feasible = false →
        Irreducible S plan.limits diagnosis.core) ∧
    ∀ skip mask plan, prepare S skip .default = .ok (mask, plan) →
      ∀ run, (elasticSolve S skip cx).2 = some run →
        run.budget.costCharged ≤
            plan.basePhaseUnits + plan.limits.starts * plan.descentEvalsPerStart ∧
          ¬ run.StoppedOnCost :=
  ⟨fun _ _ hprepare => diagnoseInfeasibility_within hprepare,
    fun _ _ _ hprepare _ hrun => elasticSolve_within hprepare hrun⟩

/-- The arithmetic of the machine; the root has sixty-four bits more than it keeps. -/
def ieee : Scalars where
  add := Binary64.add
  sub := Binary64.sub
  mul := Binary64.mul
  div := Binary64.div
  midpoint a b := Binary64.div (Binary64.add a b) Binary64.two
  sqrt x := Binary64.ofMagnitude false
    (Binary64.round (Nat.sqrt (Binary64.units x.magnitude * 2 ^ 1074 * 2 ^ 128)) (2 ^ 64))
  fixed3 x :=
    let thousandths := (Binary64.units x.magnitude * 1000 + 2 ^ 1073) / 2 ^ 1074
    toString (thousandths / 1000) ++ "." ++
      toString (thousandths / 100 % 10) ++ toString (thousandths / 10 % 10) ++
        toString (thousandths % 10)
  zero_add_zero := by decide

/-- Two constraints that fail together only, each within the tolerance, and one that holds. -/
def jointlyInfeasible : Setting Empty where
  ops := ieee
  problem := ⟨[.rn 1], fun node _ =>
    .ok (if node = 2 then Binary64.one.neg else ⟨0x3ea421f5f40d8376⟩)⟩
  specs := [⟨"g", 0, .hard⟩, ⟨"h", 1, .hard⟩, ⟨"k", 2, .hard⟩]
  domain := ⟨[(Binary64.zero, Binary64.one)]⟩

/-- A context with a quota that is just enough. -/
def ampleCx : Cx := ⟨⟨none, 2 ^ 32 - 1, some 205497⟩, fun _ => false, none, false⟩

/-- What a diagnosis reports and leaves. -/
def outcome (S : Setting F) (cx : Cx) : Option (Bool × List ℕ × ℕ) :=
  match diagnoseInfeasibility S cx with
  | (.ok diagnosis, some d) => some (diagnosis.feasible, diagnosis.core, d.subsetSolves)
  | _ => none

theorem outcome_eq_some {feasible : Bool} {core : List ℕ} {solves : ℕ}
    (h : outcome S cx = some (feasible, core, solves)) :
    ∃ diagnosis d, (diagnoseInfeasibility S cx).1 = .ok diagnosis ∧
      (diagnoseInfeasibility S cx).2 = some d ∧ diagnosis.feasible = feasible ∧
        diagnosis.core = core ∧ d.subsetSolves = solves := by
  unfold outcome at h
  split at h
  · rename_i diagnosis d hrun
    cases h
    exact ⟨diagnosis, d, by rw [hrun], by rw [hrun], rfl, rfl, rfl⟩
  · cases h

/-- The verdict of a subset solve. -/
def verdict (S : Setting F) (limits : RestorationWorkLimits) (members : List ℕ) (run : Run) :
    Option Bool :=
  match (runElastic S (SkipMask.keepingOnly S.specs.length members) limits run).1 with
  | .ok solution => some (Binary64.le solution.totalViolation FEAS_TOL)
  | .error _ => none

theorem foundFeasible_iff_verdict {members : List ℕ} {run : Run} {feasible : Bool}
    (h : verdict S limits members run = some feasible) :
    FoundFeasible S limits members ↔ feasible = true := by
  unfold verdict at h
  split at h
  · rename_i solution hsolution
    cases h
    constructor
    · rintro ⟨other, hother, hle⟩
      obtain rfl := IsSolution.unique ⟨run, hsolution⟩ hother
      exact hle
    · exact fun hle => ⟨solution, ⟨run, hsolution⟩, hle⟩
  · cases h

/-- The run that starts under an admitted plan. -/
def freshRun (cx : Cx) (planned : ℕ) : Run := ⟨cx, 0, ⟨cx.budget, none, planned, 0, 0, none⟩, 0⟩

theorem verdicts_jointlyInfeasible : ∀ members ∈ (List.range 3).sublists,
    verdict jointlyInfeasible .default members (freshRun ampleCx 205497) =
      some (decide (members ≠ [0, 1] ∧ members ≠ [0, 1, 2])) := by
  decide +kernel

theorem passesBelow_jointlyInfeasible :
    PassesBelow (FoundFeasible jointlyInfeasible .default) (List.range 3) := by
  intro l l' hsub hwhole hfeasible
  have hl := verdicts_jointlyInfeasible l (List.mem_sublists.2 (hsub.trans hwhole))
  have hl' := verdicts_jointlyInfeasible l' (List.mem_sublists.2 hwhole)
  rw [foundFeasible_iff_verdict hl'] at hfeasible
  rw [foundFeasible_iff_verdict hl]
  simp only [decide_eq_true_eq] at hfeasible ⊢
  constructor
  · rintro rfl
    have hcases : ∀ l' ∈ (List.range 3).sublists, [0, 1].Sublist l' →
        l' = [0, 1] ∨ l' = [0, 1, 2] := by decide
    rcases hcases l' (List.mem_sublists.2 hwhole) hsub with rfl | rfl
    · exact hfeasible.1 rfl
    · exact hfeasible.2 rfl
  · rintro rfl
    exact hfeasible.2 (hsub.antisymm hwhole).symm

theorem diagnoseInfeasibility_irreducible_joint :
    (∃ diagnosis d, (diagnoseInfeasibility jointlyInfeasible ampleCx).1 = .ok diagnosis ∧
      (diagnoseInfeasibility jointlyInfeasible ampleCx).2 = some d ∧
      diagnosis.feasible = false ∧ diagnosis.core = [0, 1] ∧
      Irreducible jointlyInfeasible .default [0, 1] ∧
      FoundFeasible jointlyInfeasible .default [0] ∧
      FoundFeasible jointlyInfeasible .default [1] ∧
      d.run.budget.costCharged ≤ 205497 ∧ ¬ d.run.StoppedOnCost ∧ d.subsetSolves = 5) ∧
    ∃ run, (elasticSolve jointlyInfeasible [0] ampleCx).2 = some run ∧
      run.budget.costCharged ≤ 7 + 8 * 1802 := by
  have hprepare : prepare jointlyInfeasible [] .default =
      .ok (⟨[false, false, false], 0⟩,
        ⟨1, .default, 1, 3, 3, 3, 6, 2703, 9, 173064, 10800, 205497⟩) := by
    decide +kernel
  have hoption : prepare jointlyInfeasible [0] .default =
      .ok (⟨[true, false, false], 1⟩,
        ⟨1, .default, 1, 3, 2, 2, 4, 1802, 7, 173064, 10800, 198287⟩) := by
    decide +kernel
  have houtcome : outcome jointlyInfeasible ampleCx = some (false, [0, 1], 5) := by
    decide +kernel
  obtain ⟨hdiagnose, helastic⟩ := diagnoseInfeasibility_irreducible jointlyInfeasible ampleCx
  obtain ⟨hspent, -, hcore⟩ := hdiagnose _ _ hprepare
  obtain ⟨diagnosis, d, hdiagnosis, hd, hfeasible, hmembers, hsolves⟩ := outcome_eq_some houtcome
  have hirreducible := hcore diagnosis hdiagnosis hfeasible
  rw [hmembers] at hirreducible
  have hminimal := hirreducible.minimal passesBelow_jointlyInfeasible
  refine ⟨⟨diagnosis, d, hdiagnosis, hd, hfeasible, hmembers, hirreducible,
    hminimal 1 (by decide), hminimal 0 (by decide), (hspent d hd).1, (hspent d hd).2.1, hsolves⟩, ?_⟩
  have hrun : (elasticSolve jointlyInfeasible [0] ampleCx).2.isSome = true := by
    have hadmitted : AdmittedBudget.admitAmbient ampleCx 198287 =
        .ok (freshRun ampleCx 198287).budget := rfl
    rw [elasticSolve_run hoption hadmitted]
    rfl
  obtain ⟨run, hrun⟩ := Option.isSome_iff_exists.1 hrun
  exact ⟨run, hrun, (helastic _ _ _ hoption run hrun).1⟩

end FrankenSim.Restoration
