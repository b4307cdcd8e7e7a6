import FrankenSim.Restoration.Solves

/-!
# Infeasibility diagnosis

One plan is admitted for the whole diagnosis: the base solve, the subset solves of the deletion
filter and the samples of the repairs.
-/
namespace FrankenSim.Restoration

open Library

def PHASE_FILTER_SOLVE : String := "fs-constraint:restoration-filter-solve"
def PHASE_REPAIR_CANDIDATE : String := "fs-constraint:restoration-repair-candidate"
def PHASE_REPAIR_SAMPLE : String := "fs-constraint:restoration-repair-sample"

inductive RestorationMemoryAuthority
  | leaseAdmitted
  | noLeaseNoClaim
  deriving DecidableEq

structure RestorationWorkReceipt where
  planIdentity : UInt64
  schemaVersion : ℕ
  consumption : Option BudgetConsumption
  workUnitsCharged : ℕ
  startsCompleted : ℕ
  memory : RestorationMemoryAuthority
  deriving DecidableEq

/-- How a call ends without a report; a panic of the code is an end of its own. -/
inductive RestorationError (F : Type)
  | invalid (error : ConError F)
  | refused (refusal : BudgetRefusal) (receipt : RestorationWorkReceipt)
  | panicked (what : String)

structure ElasticReport where
  x : List Binary64
  totalViolation : Binary64
  violations : List Binary64
  evals : ℕ
  work : RestorationWorkReceipt

inductive RepairKind
  | relaxBound (index : ℕ) (slack : Binary64)
  | dropSoft (index : ℕ)
  deriving DecidableEq

structure RepairAction where
  description : String
  kind : RepairKind
  feasibilityEstimate : Binary64
  deriving DecidableEq

structure Diagnosis where
  feasible : Bool
  witness : Option (List Binary64)
  core : List ℕ
  repairs : List RepairAction
  elastic : ElasticReport
  work : RestorationWorkReceipt

/-- A diagnosis under way: its run, and the subset solves so far, which nothing reads. -/
structure Diagnosing where
  run : Run
  subsetSolves : ℕ

/-- An early end of a diagnosis: a stop of its run, or a panic. -/
inductive Halt (F : Type)
  | stop (stop : Stop (ConError F))
  | panicked (what : String)

abbrev Diagnoses (F α : Type) := Metered Diagnosing (Halt F) α

variable {F α : Type}

def onRun (m : Stopped (ConError F) α) : Diagnoses F α :=
  Metered.zoom Diagnosing.run (fun run d => ⟨run, d.subsetSolves⟩) .stop m

/-- FNV-1a over the fields in little-endian order. -/
def RestorationWorkPlan.identity (plan : RestorationWorkPlan) : UInt64 :=
  (leBytes 4 plan.schemaVersion ++ leBytes 4 plan.limits.starts ++
    leBytes 4 plan.limits.stepsPerStart ++ leBytes 4 plan.limits.feasibilitySamples ++
    leBytes 4 plan.dimensions ++ leBytes 4 plan.constraintsTotal ++
    leBytes 4 plan.activeConstraints ++ leBytes 8 plan.evalsPerTotalPass ++
    leBytes 8 plan.fdEvalsPerStep ++ leBytes 8 plan.descentEvalsPerStart ++
    leBytes 8 plan.basePhaseUnits ++ leBytes 8 plan.filterAllowanceUnits ++
    leBytes 8 plan.repairAllowanceUnits ++ leBytes 8 plan.totalWorkUnits).foldl
      (fun hash byte => (hash ^^^ byte.toUInt64) * 0x100000001b3) 0xcbf29ce484222325

def memoryAuthority (cx : Cx) : RestorationMemoryAuthority :=
  if cx.lease then .leaseAdmitted else .noLeaseNoClaim

def receipt (plan : RestorationWorkPlan) (run : Run) : RestorationWorkReceipt where
  planIdentity := plan.identity
  schemaVersion := plan.schemaVersion
  consumption := some run.budget.consumption
  workUnitsCharged := run.budget.costCharged
  startsCompleted := run.startsCompleted
  memory := memoryAuthority run.cx

def RestorationWorkReceipt.refusedAdmission (plan : RestorationWorkPlan) :
    RestorationWorkReceipt where
  planIdentity := plan.identity
  schemaVersion := plan.schemaVersion
  consumption := none
  workUnitsCharged := 0
  startsCompleted := 0
  memory := .noLeaseNoClaim

/-- Domain, skip mask and plan, before any budget is touched. -/
def prepare (S : Setting F) (skip : List ℕ) (limits : RestorationWorkLimits) :
    Except (ConError F) (SkipMask × RestorationWorkPlan) := do
  let dimension ← validateDomain S
  let mask ← canonicalSkipMask S.specs.length skip
  refuseWhen (dimension ≥ 2 ^ 32)
    (.badParam "restoration host dimension exceeds the plan's u32 identity space"
      (Binary64.ofNat dimension))
  refuseWhen (S.specs.length ≥ 2 ^ 32)
    (.badParam "restoration constraint count exceeds the plan's u32 identity space"
      (Binary64.ofNat S.specs.length))
  let plan ← RestorationWorkPlan.plan ⟨dimension, S.specs.length, mask.skippedCount, limits⟩
  .ok (mask, plan)

/-- The end of a run as the caller sees it. -/
def stopped (plan : RestorationWorkPlan) (run : Run) : Stop (ConError F) → RestorationError F
  | .refused refusal => .refused refusal (receipt plan run)
  | .fault error => .invalid error

/-- The elastic solve, with the run it leaves when it was admitted. -/
def elasticSolve (S : Setting F) (skip : List ℕ) (cx : Cx) :
    Except (RestorationError F) ElasticReport × Option Run :=
  match prepare S skip .default with
  | .error error => (.error (.invalid error), none)
  | .ok (mask, plan) =>
    match AdmittedBudget.admitAmbient cx plan.totalWorkUnits with
    | .error refusal => (.error (.refused refusal (.refusedAdmission plan)), none)
    | .ok budget =>
      match runElastic S mask plan.limits ⟨cx, 0, budget, 0⟩ with
      | (.ok solution, run) =>
        (.ok ⟨solution.x, solution.totalViolation, solution.violations, solution.evals,
          receipt plan run⟩, some run)
      | (.error stop, run) => (.error (stopped plan run stop), some run)

/-- One sample: whether every constraint holds, and the evaluations performed. -/
def sampleChecks (S : Setting F) (relax : List (ℕ × Binary64)) (drop : Option ℕ)
    (x : List Binary64) : List (ConstraintSpec × ℕ) → ℕ → Stopped (ConError F) (Bool × ℕ)
  | [], performed => pure (true, performed)
  | (spec, i) :: rest, performed => do
    cpEvery i PHASE_REPAIR_SAMPLE
    if drop = some i then sampleChecks S relax drop x rest performed
    else do
      let slack := ((relax.find? fun entry => entry.1 = i).map Prod.snd).getD Binary64.zero
      let gi ← faulting (S.problem.scalarAt spec.node x)
      if !gi.isFinite || Binary64.lt slack gi then pure (false, performed + 1)
      else sampleChecks S relax drop x rest (performed + 1)

def sampleRound (S : Setting F) (relax : List (ℕ × Binary64)) (drop : Option ℕ)
    (acc : Lcg × ℕ) (sample : ℕ) : Stopped (ConError F) (Lcg × ℕ) := do
  cpEvery sample PHASE_REPAIR_SAMPLE
  let (x, rng) := randomPoint S acc.1
  let (ok, performed) ← sampleChecks S relax drop x S.specs.zipIdx 0
  charge PHASE_REPAIR_SAMPLE (performed * RESTORATION_UNITS_CONSTRAINT_EVALUATION)
  pure (rng, if ok then acc.2 + 1 else acc.2)

/-- The share of random points where the changed constraints hold. -/
def feasibleFraction (S : Setting F) (relax : List (ℕ × Binary64)) (drop : Option ℕ)
    (samples : ℕ) : Stopped (ConError F) Binary64 := do
  let (_, hits) ← (List.range samples).foldlM (sampleRound S relax drop)
    (⟨0x1001202607070002⟩, 0)
  pure (S.ops.div (Binary64.ofNat hits) (Binary64.ofNat samples))

/-- The members of the elastic support. -/
def support (violations : List Binary64) : List ℕ :=
  (violations.zipIdx.filter fun entry => Binary64.lt FEAS_TOL entry.1).map Prod.snd

/-- Solve for a subset alone; its starts are not those of the report. -/
def verifySubset (S : Setting F) (limits : RestorationWorkLimits) (members : List ℕ) :
    Diagnoses F ElasticSolution := do
  onRun (cp PHASE_FILTER_SOLVE)
  Metered.zoom Diagnosing.run
    (fun run d => ⟨{ run with startsCompleted := d.run.startsCompleted }, d.subsetSolves + 1⟩)
    .stop (runElastic S (SkipMask.keepingOnly S.specs.length members) limits)

/-- Drop a member when the rest stays infeasible, else keep it and go on. -/
def deletionFilter (S : Setting F) (limits : RestorationWorkLimits) (core : List ℕ) (k : ℕ) :
    Diagnoses F (List ℕ) :=
  if k < core.length then do
    onRun (cp PHASE_FILTER_SOLVE)
    let without ← verifySubset S limits (core.eraseIdx k)
    if Binary64.le without.totalViolation FEAS_TOL then deletionFilter S limits core (k + 1)
    else deletionFilter S limits (core.eraseIdx k) k
  else pure core
termination_by core.length - k
decreasing_by
  · omega
  · rw [List.length_eraseIdx_of_lt ‹_›]
    omega

def ASSERTION : String :=
  "deletion filtering must not publish a jointly feasible unsat core"

/-- The repair of one factor: more room for a constraint. -/
def relaxRound (S : Setting F) (limits : RestorationWorkLimits) (i : ℕ) (scale : Binary64)
    (repairs : List RepairAction) (factor : Binary64) : Diagnoses F (List RepairAction) := do
  let slack := S.ops.mul scale factor
  onRun (faulting (refuseWhen (!slack.isFinite) (.badParam "repair slack" slack)))
  let est ← onRun (feasibleFraction S [(i, slack)] none limits.feasibilitySamples)
  let text := S.ops.fixed3 slack
  pure (repairs ++ [⟨"relax `" ++ (S.specs.getD i default).name ++ "` by " ++ text ++ " (g <= " ++
    text ++ ")", .relaxBound i slack, est⟩])

def repairRound (S : Setting F) (limits : RestorationWorkLimits) (violations : List Binary64)
    (repairs : List RepairAction) (i : ℕ) : Diagnoses F (List RepairAction) := do
  onRun (cp PHASE_REPAIR_CANDIDATE)
  let scale := Binary64.max (violations.getD i Binary64.zero) FEAS_TOL
  -- the factors are 1.1 and 1.5
  let repairs ← [⟨0x3ff199999999999a⟩, ⟨0x3ff8000000000000⟩].foldlM (relaxRound S limits i scale)
    repairs
  if (S.specs.getD i default).kind = .soft then do
    let est ← onRun (feasibleFraction S [] (some i) limits.feasibilitySamples)
    pure (repairs ++ [⟨"drop soft constraint `" ++ (S.specs.getD i default).name ++ "`",
      .dropSoft i, est⟩])
  else pure repairs

/-- Best estimate first, then by description; a sort that meets a NaN panics. -/
def rank (repairs : List RepairAction) : Except String (List RepairAction) :=
  if 2 ≤ repairs.length ∧ repairs.any fun repair => repair.feasibilityEstimate.isNan then
    .error "estimates are finite"
  else
    .ok (repairs.mergeSort fun a b =>
      decide (b.feasibilityEstimate.key < a.feasibilityEstimate.key ∨
        b.feasibilityEstimate.key = a.feasibilityEstimate.key ∧ a.description ≤ b.description))

/-- The receipt of the run as it stands. -/
def currentReceipt (plan : RestorationWorkPlan) : Diagnoses F RestorationWorkReceipt :=
  fun d => (.ok (receipt plan d.run), d)

/-- A violation of the final assertion ends with its text. -/
def assertInfeasible (solution : ElasticSolution) : Diagnoses F Unit :=
  Metered.ofExcept
    (refuseWhen (¬ Binary64.lt FEAS_TOL solution.totalViolation) (.panicked ASSERTION))

def diagnose (S : Setting F) (mask : SkipMask) (plan : RestorationWorkPlan) :
    Diagnoses F Diagnosis := do
  let base ← onRun (runElastic S mask plan.limits)
  if Binary64.le base.totalViolation FEAS_TOL then do
    let work ← currentReceipt plan
    pure ⟨true, some base.x, [], [],
      ⟨base.x, base.totalViolation, base.violations, base.evals, work⟩, work⟩
  else do
    let candidate := support base.violations
    let supported ← verifySubset S plan.limits candidate
    let start := if Binary64.le supported.totalViolation FEAS_TOL
      then List.range S.specs.length else candidate
    let core ← deletionFilter S plan.limits start 0
    let verifiedCore ← verifySubset S plan.limits core
    assertInfeasible verifiedCore
    let repairs ← core.foldlM (repairRound S plan.limits base.violations) []
    let repairs ← Metered.ofExcept ((rank repairs).mapError .panicked)
    let work ← currentReceipt plan
    pure ⟨false, none, core, repairs,
      ⟨base.x, base.totalViolation, base.violations, base.evals, work⟩, work⟩

/-- The diagnosis, with what it leaves when it was admitted. -/
def diagnoseInfeasibility (S : Setting F) (cx : Cx) :
    Except (RestorationError F) Diagnosis × Option Diagnosing :=
  match prepare S [] .default with
  | .error error => (.error (.invalid error), none)
  | .ok (mask, plan) =>
    match AdmittedBudget.admitAmbient cx plan.totalWorkUnits with
    | .error refusal => (.error (.refused refusal (.refusedAdmission plan)), none)
    | .ok budget =>
      match diagnose S mask plan ⟨⟨cx, 0, budget, 0⟩, 0⟩ with
      | (.ok diagnosis, d) => (.ok diagnosis, some d)
      | (.error (.stop stop), d) => (.error (stopped plan d.run stop), some d)
      | (.error (.panicked what), d) => (.error (.panicked what), some d)

end FrankenSim.Restoration
