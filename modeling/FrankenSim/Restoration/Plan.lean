import FrankenSim.Library.Binary64
import FrankenSim.Library.Refusals
import FrankenSim.Library.Words

/-!
# The work plan of a restoration run

A plan states the worst case of a run in checked integers, before any work is done.
-/
namespace FrankenSim.Restoration

open Library

def RESTORATION_WORK_PLAN_SCHEMA_VERSION : ℕ := 1
def RESTORATION_UNITS_SKIP_MASK_ENTRY : ℕ := 1
def RESTORATION_UNITS_CONSTRAINT_EVALUATION : ℕ := 1
def RESTORATION_MAX_STARTS : ℕ := 8
def RESTORATION_MAX_STEPS_PER_START : ℕ := 300
def RESTORATION_MAX_FEASIBILITY_SAMPLES : ℕ := 400

inductive Manifold
  | rn (dim : ℕ)
  | sphere (ambient : ℕ)
  | so3
  | stiefel (n p : ℕ)
  deriving DecidableEq

inductive DomainRangeError
  | nonFiniteEndpoint
  | reversed
  | unrepresentableSpan
  deriving DecidableEq

inductive DomainError
  | hostVariableCount (got : ℕ)
  | hostVariableManifold (got : Manifold)
  | dimensionMismatch (expected got : ℕ)
  | invalidRange (axis : ℕ) (lo hi : Binary64) (reason : DomainRangeError)
  deriving DecidableEq

/-- A refusal of the constraint calculus; `F` are the faults of the evaluator. -/
inductive ConError (F : Type)
  | badParam (what : String) (value : Binary64)
  | invalidDomain (error : DomainError)
  | evaluation (fault : F)
  deriving DecidableEq

structure RestorationWorkLimits where
  starts : ℕ
  stepsPerStart : ℕ
  feasibilitySamples : ℕ
  deriving DecidableEq

def RestorationWorkLimits.default : RestorationWorkLimits :=
  ⟨RESTORATION_MAX_STARTS, RESTORATION_MAX_STEPS_PER_START, RESTORATION_MAX_FEASIBILITY_SAMPLES⟩

structure RestorationWorkShape where
  dimensions : ℕ
  constraintsTotal : ℕ
  skippedCount : ℕ
  limits : RestorationWorkLimits
  deriving DecidableEq

structure RestorationWorkPlan where
  schemaVersion : ℕ
  limits : RestorationWorkLimits
  dimensions : ℕ
  constraintsTotal : ℕ
  activeConstraints : ℕ
  evalsPerTotalPass : ℕ
  fdEvalsPerStep : ℕ
  descentEvalsPerStart : ℕ
  basePhaseUnits : ℕ
  filterAllowanceUnits : ℕ
  repairAllowanceUnits : ℕ
  totalWorkUnits : ℕ
  deriving DecidableEq

variable {F : Type}

/-- `f64::from` of a count. -/
def u32f (value : ℕ) : Binary64 := Binary64.ofNat value

def RestorationWorkLimits.checked (limits : RestorationWorkLimits) :
    Except (ConError F) RestorationWorkLimits := do
  refuseWhen (limits.starts = 0 ∨ limits.starts > RESTORATION_MAX_STARTS)
    (.badParam "restoration limits.starts must be in 1..=RESTORATION_MAX_STARTS"
      (u32f limits.starts))
  refuseWhen (limits.stepsPerStart = 0 ∨ limits.stepsPerStart > RESTORATION_MAX_STEPS_PER_START)
    (.badParam "restoration limits.steps_per_start must be in 1..=RESTORATION_MAX_STEPS_PER_START"
      (u32f limits.stepsPerStart))
  refuseWhen (limits.feasibilitySamples = 0 ∨
      limits.feasibilitySamples > RESTORATION_MAX_FEASIBILITY_SAMPLES)
    (.badParam
      "restoration limits.feasibility_samples must be in 1..=RESTORATION_MAX_FEASIBILITY_SAMPLES"
      (u32f limits.feasibilitySamples))
  .ok limits

/-- `checked_mul` on 64 bits. -/
def checkedMul (a b : ℕ) : Option ℕ := if a * b < 2 ^ 64 then some (a * b) else none

/-- `ok_or_else(|| overflow(what, value))`. -/
def orOverflow (o : Option ℕ) (what : String) (value : ℕ) : Except (ConError F) ℕ :=
  match o with
  | some n => .ok n
  | none => .error (.badParam what (u32f value))

def RestorationWorkShape.activeConstraints (shape : RestorationWorkShape) : ℕ :=
  shape.constraintsTotal - shape.skippedCount

/-- Build a checked plan; the allowances are for the solves and the estimates of a diagnosis. -/
def RestorationWorkPlan.plan (shape : RestorationWorkShape) :
    Except (ConError F) RestorationWorkPlan := do
  let limits ← shape.limits.checked
  refuseWhen (shape.dimensions = 0)
    (.badParam "restoration work plan needs a positive dimension" Binary64.zero)
  refuseWhen (shape.skippedCount > shape.constraintsTotal)
    (.badParam "restoration skipped_count cannot exceed constraints_total"
      (u32f shape.skippedCount))
  let dims := shape.dimensions
  let ct := shape.constraintsTotal
  let active := shape.constraintsTotal - shape.skippedCount
  let steps := limits.stepsPerStart
  let starts := limits.starts
  let evalsPerTotalPass ← orOverflow (checkedMul active RESTORATION_UNITS_CONSTRAINT_EVALUATION)
    "restoration plan overflows evals_per_total_pass" shape.activeConstraints
  let fdEvalsPerStep ← orOverflow ((checkedMul dims 2).bind fun probes => checkedMul probes active)
    "restoration plan overflows fd_evals_per_step" shape.dimensions
  let evalsPerStep ← orOverflow (checkedAdd 64 fdEvalsPerStep evalsPerTotalPass)
    "restoration plan overflows per-step work" shape.dimensions
  let descentEvalsPerStart ← orOverflow ((checkedMul evalsPerStep steps).bind fun stepsWork =>
      checkedAdd 64 stepsWork evalsPerTotalPass)
    "restoration plan overflows descent work per start" limits.stepsPerStart
  let startsWork ← orOverflow (checkedMul descentEvalsPerStart starts)
    "restoration plan overflows starts work" limits.starts
  let maskUnits ← orOverflow (checkedMul ct RESTORATION_UNITS_SKIP_MASK_ENTRY)
    "restoration plan overflows skip-mask work" shape.constraintsTotal
  let basePhaseUnits ← orOverflow ((checkedAdd 64 maskUnits evalsPerTotalPass).bind fun work =>
      checkedAdd 64 work evalsPerTotalPass)
    "restoration plan overflows base-phase work" shape.constraintsTotal
  let subsetFdStep ← orOverflow ((checkedMul dims 2).bind fun probes => checkedMul probes ct)
    "restoration plan overflows subset-step allowance" shape.dimensions
  let subsetEvalsPerStep ← orOverflow (checkedAdd 64 subsetFdStep ct)
    "restoration plan overflows subset-step allowance" shape.dimensions
  let subsetDescent ← orOverflow ((checkedMul subsetEvalsPerStep steps).bind fun stepsWork =>
      checkedAdd 64 stepsWork ct)
    "restoration plan overflows subset-run allowance" limits.stepsPerStart
  let subsetRunUpper ← orOverflow ((checkedAdd 64 maskUnits ct).bind fun head =>
      (checkedMul starts subsetDescent).bind fun body =>
        (checkedAdd 64 head body).bind fun body => checkedAdd 64 body ct)
    "restoration plan overflows subset-run allowance" shape.constraintsTotal
  let filterRuns ← orOverflow ((checkedMul ct 2).bind fun runs => checkedAdd 64 runs 2)
    "restoration plan overflows filter-run count" shape.constraintsTotal
  let filterAllowanceUnits ← orOverflow (checkedMul filterRuns subsetRunUpper)
    "restoration plan overflows filter allowance" shape.constraintsTotal
  let estimates ← orOverflow (checkedMul ct 3)
    "restoration plan overflows repair-estimate count" shape.constraintsTotal
  let estimateUpper ← orOverflow (checkedMul limits.feasibilitySamples ct)
    "restoration plan overflows repair-estimate work" limits.feasibilitySamples
  let repairAllowanceUnits ← orOverflow (checkedMul estimates estimateUpper)
    "restoration plan overflows repair allowance" shape.constraintsTotal
  let totalWorkUnits ← orOverflow ((checkedAdd 64 basePhaseUnits startsWork).bind fun work =>
      (checkedAdd 64 work filterAllowanceUnits).bind fun work =>
        checkedAdd 64 work repairAllowanceUnits)
    "restoration plan overflows total work" (2 ^ 32 - 1)
  .ok {
    schemaVersion := RESTORATION_WORK_PLAN_SCHEMA_VERSION
    limits := limits
    dimensions := shape.dimensions
    constraintsTotal := shape.constraintsTotal
    activeConstraints := shape.constraintsTotal - shape.skippedCount
    evalsPerTotalPass := evalsPerTotalPass
    fdEvalsPerStep := fdEvalsPerStep
    descentEvalsPerStart := descentEvalsPerStart
    basePhaseUnits := basePhaseUnits
    filterAllowanceUnits := filterAllowanceUnits
    repairAllowanceUnits := repairAllowanceUnits
    totalWorkUnits := totalWorkUnits }

/-- The units of one descent over `active` constraints. -/
def descentUnits (limits : RestorationWorkLimits) (dims active : ℕ) : ℕ :=
  (dims * 2 * active + active) * limits.stepsPerStart + active

/-- The units of one elastic solve over `active` of `total` constraints. -/
def elasticUnits (limits : RestorationWorkLimits) (dims total active : ℕ) : ℕ :=
  total + active + active + descentUnits limits dims active * limits.starts

theorem checkedMul_eq_some {a b c : ℕ} : checkedMul a b = some c ↔ a * b = c ∧ c < 2 ^ 64 := by
  unfold checkedMul
  split_ifs with h
  · constructor
    · rintro ⟨⟩
      exact ⟨rfl, h⟩
    · rintro ⟨rfl, _⟩
      rfl
  · constructor
    · rintro ⟨⟩
    · rintro ⟨rfl, hlt⟩
      exact absurd hlt h

theorem orOverflow_eq_ok {o : Option ℕ} {what : String} {value n : ℕ} :
    (orOverflow o what value : Except (ConError F) ℕ) = .ok n ↔ o = some n := by
  cases o with
  | none => simp [orOverflow]
  | some m => simp [orOverflow]

/-- What a plan declares: the fields in closed form, the total within a word. -/
structure Declares (shape : RestorationWorkShape) (plan : RestorationWorkPlan) : Prop where
  limits : plan.limits = shape.limits
  skipped_le : shape.skippedCount ≤ shape.constraintsTotal
  descent : plan.descentEvalsPerStart =
    descentUnits shape.limits shape.dimensions (shape.constraintsTotal - shape.skippedCount)
  base : plan.basePhaseUnits + shape.limits.starts * plan.descentEvalsPerStart =
    elasticUnits shape.limits shape.dimensions shape.constraintsTotal
      (shape.constraintsTotal - shape.skippedCount)
  total : plan.totalWorkUnits =
    elasticUnits shape.limits shape.dimensions shape.constraintsTotal
        (shape.constraintsTotal - shape.skippedCount) +
      (shape.constraintsTotal * 2 + 2) *
        elasticUnits shape.limits shape.dimensions shape.constraintsTotal shape.constraintsTotal +
      shape.constraintsTotal * 3 * (shape.limits.feasibilitySamples * shape.constraintsTotal)
  total_lt : plan.totalWorkUnits < 2 ^ 64

theorem checked_eq_ok {limits limits' : RestorationWorkLimits}
    (h : (limits.checked : Except (ConError F) _) = .ok limits') : limits' = limits := by
  unfold RestorationWorkLimits.checked at h
  obtain ⟨_, _, h⟩ := bind_eq_ok h
  obtain ⟨_, _, h⟩ := bind_eq_ok h
  obtain ⟨_, _, h⟩ := bind_eq_ok h
  exact (Except.ok.inj h).symm

theorem plan_declares {shape : RestorationWorkShape} {plan : RestorationWorkPlan}
    (h : (RestorationWorkPlan.plan shape : Except (ConError F) _) = .ok plan) :
    Declares shape plan := by
  unfold RestorationWorkPlan.plan at h
  obtain ⟨limits, hlimits, h⟩ := bind_eq_ok h
  obtain rfl := checked_eq_ok hlimits
  obtain ⟨_, _, h⟩ := bind_eq_ok h
  obtain ⟨_, hskipped, h⟩ := bind_eq_ok h
  rw [refuseWhen_ok, not_lt] at hskipped
  simp only [bind_eq_ok_iff, orOverflow_eq_ok, Option.bind_eq_some_iff, checkedMul_eq_some,
    checkedAdd_eq_some, Except.ok.injEq] at h
  obtain ⟨pass, ⟨hpass, _⟩, fd, ⟨_, ⟨rfl, _⟩, hfd, _⟩, step, ⟨hstep, _⟩, descent,
    ⟨_, ⟨rfl, _⟩, hdescent, _⟩, starts, ⟨hstarts, _⟩, mask, ⟨hmask, _⟩, base,
    ⟨_, ⟨rfl, _⟩, hbase, _⟩, subsetFd, ⟨_, ⟨rfl, _⟩, hsubsetFd, _⟩, subsetStep, ⟨hsubsetStep, _⟩,
    subsetDescent, ⟨_, ⟨rfl, _⟩, hsubsetDescent, _⟩, run,
    ⟨_, ⟨rfl, _⟩, _, ⟨rfl, _⟩, _, ⟨rfl, _⟩, hrun, _⟩, runs, ⟨_, ⟨rfl, _⟩, hruns, _⟩, filter,
    ⟨hfilter, _⟩, estimates, ⟨hestimates, _⟩, upper, ⟨hupper, _⟩, repair, ⟨hrepair, _⟩, total,
    ⟨_, ⟨rfl, _⟩, _, ⟨rfl, _⟩, htotal, hlt⟩, rfl⟩ := h
  have hunit : RESTORATION_UNITS_CONSTRAINT_EVALUATION = 1 := rfl
  have hentry : RESTORATION_UNITS_SKIP_MASK_ENTRY = 1 := rfl
  rw [hunit, Nat.mul_one] at hpass
  rw [hentry, Nat.mul_one] at hmask
  subst hpass hfd hstep hdescent hstarts hmask hbase hsubsetFd hsubsetStep hsubsetDescent hrun
  subst hruns hfilter hestimates hupper hrepair htotal
  refine ⟨rfl, hskipped, rfl, ?_, ?_, hlt⟩
  · simp only [elasticUnits, descentUnits]
    ring
  · simp only [elasticUnits, descentUnits]
    ring

end FrankenSim.Restoration
