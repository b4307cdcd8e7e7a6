import FrankenSim.Restoration.Budget
import FrankenSim.Restoration.Plan
import Mathlib.Data.List.GetD

/-!
# The elastic solve

The sum of the violations is minimised over a box, from several starts, by projected descent with
finite differences. All work runs through the accountant of the run.
-/
namespace FrankenSim.Restoration

open Library

/-- The arithmetic and the text of the scalars; only the sum of two zeros is fixed. -/
structure Scalars where
  add : Binary64 → Binary64 → Binary64
  sub : Binary64 → Binary64 → Binary64
  mul : Binary64 → Binary64 → Binary64
  div : Binary64 → Binary64 → Binary64
  midpoint : Binary64 → Binary64 → Binary64
  sqrt : Binary64 → Binary64
  /-- The text with three decimals. -/
  fixed3 : Binary64 → String
  zero_add_zero : add Binary64.zero Binary64.zero = Binary64.zero

inductive ConstraintKind
  | hard
  | soft
  | chance
  | robust
  | certification
  | fabrication
  | code
  deriving DecidableEq

structure ConstraintSpec where
  name : String
  node : ℕ
  kind : ConstraintKind

instance : Inhabited ConstraintSpec := ⟨⟨"", 0, .hard⟩⟩

/-- The variables of a host and its evaluator. -/
structure Problem (F : Type) where
  vars : List Manifold
  scalarAt : ℕ → List Binary64 → Except (ConError F) Binary64

structure DomainBox where
  ranges : List (Binary64 × Binary64)

/-- What an entry point is given besides its context. -/
structure Setting (F : Type) where
  ops : Scalars
  problem : Problem F
  specs : List ConstraintSpec
  domain : DomainBox

structure Lcg where
  state : UInt64

def Lcg.next (rng : Lcg) : Lcg := ⟨rng.state * 6364136223846793005 + 1442695040888963407⟩

/-- `1e-6`. -/
def FEAS_TOL : Binary64 := ⟨0x3eb0c6f7a0b5ed8d⟩

/-- `1e30`. -/
def NONFINITE_PENALTY : Binary64 := ⟨0x46293e5939a08cea⟩

def CANCELLATION_STRIDE : ℕ := 64

def PHASE_SKIP_MASK : String := "fs-constraint:restoration-skip-mask"
def PHASE_TOTAL_PASS : String := "fs-constraint:restoration-total-pass"
def PHASE_FD_PROBE : String := "fs-constraint:restoration-fd-probe"
def PHASE_STEP : String := "fs-constraint:restoration-step"
def PHASE_START : String := "fs-constraint:restoration-start"
def PHASE_FINAL_VIOLATIONS : String := "fs-constraint:restoration-final-violations"

variable {F : Type}

def violationContribution (value : Binary64) : Binary64 :=
  if value.isFinite then Binary64.max value Binary64.zero else NONFINITE_PENALTY

def checkedTotalViolation (ops : Scalars) (total contribution : Binary64) :
    Except (ConError F) Binary64 :=
  let next := ops.add total contribution
  if next.isFinite then .ok next else .error (.badParam "elastic total violation" next)

def validateDomain (S : Setting F) : Except (ConError F) ℕ :=
  match S.problem.vars with
  | [.rn dim] => do
    refuseWhen (S.domain.ranges.length ≠ dim)
      (.invalidDomain (.dimensionMismatch dim S.domain.ranges.length))
    S.domain.ranges.zipIdx.forM fun ((lo, hi), axis) => do
      refuseWhen (!lo.isFinite || !hi.isFinite)
        (.invalidDomain (.invalidRange axis lo hi .nonFiniteEndpoint))
      refuseWhen (Binary64.lt hi lo) (.invalidDomain (.invalidRange axis lo hi .reversed))
      refuseWhen (!(S.ops.sub hi lo).isFinite)
        (.invalidDomain (.invalidRange axis lo hi .unrepresentableSpan))
    .ok dim
  | [manifold] => .error (.invalidDomain (.hostVariableManifold manifold))
  | vars => .error (.invalidDomain (.hostVariableCount vars.length))

structure SkipMask where
  skipped : List Bool
  skippedCount : ℕ
  deriving DecidableEq

/-- One skipped index more. -/
def skipRound (specsLen : ℕ) (mask : SkipMask) (index : ℕ) : Except (ConError F) SkipMask := do
  refuseWhen (index ≥ specsLen)
    (.badParam "restoration skip index out of range" (Binary64.ofNat index))
  refuseWhen (mask.skipped.getD index false)
    (.badParam "restoration skip indices must be unique" (Binary64.ofNat index))
  .ok ⟨mask.skipped.set index true, mask.skippedCount + 1⟩

def canonicalSkipMask (specsLen : ℕ) (skip : List ℕ) : Except (ConError F) SkipMask :=
  skip.foldlM (skipRound specsLen) ⟨List.replicate specsLen false, 0⟩

/-- One kept member more; a repeated one stays one entry. -/
def keepRound (acc : List Bool × ℕ) (member : ℕ) : List Bool × ℕ :=
  if !acc.1.getD member true then acc else (acc.1.set member false, acc.2 + 1)

def SkipMask.keepingOnly (specsLen : ℕ) (members : List ℕ) : SkipMask :=
  let acc := members.foldl keepRound (List.replicate specsLen true, 0)
  ⟨acc.1, min specsLen (2 ^ 32 - 1) - acc.2⟩

/-- Every member of a list changed by the partner it has in the other one. -/
def zipUpdate {α β : Type} (f : α → β → α) : List α → List β → List α
  | a :: as, b :: bs => f a b :: zipUpdate f as bs
  | as, _ => as

def clampValue (value lo hi : Binary64) : Binary64 :=
  if Binary64.lt value lo then lo else if Binary64.lt hi value then hi else value

def clamp (S : Setting F) (x : List Binary64) : List Binary64 :=
  zipUpdate (fun value (lo, hi) => clampValue value lo hi) x S.domain.ranges

/-- The next number from the generator, between zero and one. -/
def Lcg.unit (ops : Scalars) (rng : Lcg) : Binary64 :=
  ops.div (Binary64.ofNat (rng.next.state.toNat / 2 ^ 11)) (Binary64.ofNat (2 ^ 53))

/-- One coordinate of a random point. -/
def randomRound (ops : Scalars) (acc : List Binary64 × Lcg) (range : Binary64 × Binary64) :
    List Binary64 × Lcg :=
  let (lo, hi) := range
  (acc.1 ++ [ops.add lo (ops.mul (ops.sub hi lo) (acc.2.unit ops))], acc.2.next)

/-- A point of the box, one number from the generator for each axis. -/
def randomPoint (S : Setting F) (rng : Lcg) : List Binary64 × Lcg :=
  S.domain.ranges.foldl (randomRound S.ops) ([], rng)

/-- A checkpoint at the rounds of the stride. -/
def cpEvery (ordinal : ℕ) (phase : String) : Stopped (ConError F) Unit :=
  if ordinal % CANCELLATION_STRIDE = 0 then cp phase else pure ()

/-- One constraint of a pass: the total and the evaluations so far. -/
def passRound (S : Setting F) (x : List Binary64) (acc : Binary64 × ℕ) (entry : ℕ × ℕ) :
    Stopped (ConError F) (Binary64 × ℕ) := do
  let (i, ordinal) := entry
  cpEvery ordinal PHASE_TOTAL_PASS
  let gi ← faulting (S.problem.scalarAt (S.specs.getD i default).node x)
  let total ← faulting (checkedTotalViolation S.ops acc.1 (violationContribution gi))
  pure (total, acc.2 + 1)

/-- One pass over the active constraints; the count of evaluations is threaded through. -/
def runTotalPass (S : Setting F) (active : List ℕ) (x : List Binary64) (evals : ℕ) :
    Stopped (ConError F) (Binary64 × ℕ) := do
  cp PHASE_TOTAL_PASS
  let acc ← active.zipIdx.foldlM (passRound S x) (Binary64.zero, evals)
  charge PHASE_TOTAL_PASS (active.length * RESTORATION_UNITS_CONSTRAINT_EVALUATION)
  pure acc

/-- One axis of the subgradient, by a central difference. -/
def probeRound (S : Setting F) (active : List ℕ) (x : List Binary64) (h : Binary64)
    (acc : List Binary64 × ℕ) (k : ℕ) : Stopped (ConError F) (List Binary64 × ℕ) := do
  cpEvery k PHASE_FD_PROBE
  let xp := clamp S (x.set k (S.ops.add (x.getD k Binary64.zero) h))
  let xm := clamp S (x.set k (S.ops.sub (x.getD k Binary64.zero) h))
  let (plus, evals) ← runTotalPass S active xp acc.2
  let (minus, evals) ← runTotalPass S active xm evals
  let width := S.ops.sub (xp.getD k Binary64.zero) (xm.getD k Binary64.zero)
  let slope := S.ops.div (S.ops.sub plus minus) (Binary64.max width ⟨0x01a56e1fc2f8f359⟩)
  pure (acc.1 ++ [slope], evals)

def runProbes (S : Setting F) (active : List ℕ) (x : List Binary64) (h : Binary64) (evals : ℕ) :
    Stopped (ConError F) (List Binary64 × ℕ) :=
  (List.range x.length).foldlM (probeRound S active x h) ([], evals)

/-- The norm of a gradient. -/
def norm (ops : Scalars) (gradient : List Binary64) : Binary64 :=
  ops.sqrt ((gradient.map fun value => ops.mul value value).foldl ops.add Binary64.zero.neg)

/-- The point after a step against the gradient. -/
def stepPoint (S : Setting F) (diam : Binary64) (step : ℕ) (x gradient : List Binary64) :
    List Binary64 :=
  let decay := S.ops.add Binary64.one (S.ops.mul (Binary64.ofNat step) ⟨0x3fa999999999999a⟩)
  let lr := S.ops.div (S.ops.div (S.ops.mul ⟨0x3fd3333333333333⟩ diam) decay) (norm S.ops gradient)
  clamp S (zipUpdate (fun value gv => S.ops.sub value (S.ops.mul lr gv)) x gradient)

/-- Subgradient steps, until the point is feasible, the gradient vanishes or the steps are out. -/
def runSteps (S : Setting F) (active : List ℕ) (diam : Binary64) :
    ℕ → ℕ → List Binary64 → Binary64 → ℕ →
      Stopped (ConError F) (List Binary64 × Binary64 × ℕ)
  | 0, _, x, v, evals => pure (x, v, evals)
  | remaining + 1, step, x, v, evals => do
    cp PHASE_STEP
    if Binary64.le v FEAS_TOL then pure (x, v, evals)
    else do
      let h := S.ops.mul ⟨0x3eb0c6f7a0b5ed8d⟩ (Binary64.max diam Binary64.one)
      let (gradient, evals) ← runProbes S active x h evals
      if Binary64.lt (norm S.ops gradient) ⟨0x3d06849b86a12b9b⟩ then pure (x, v, evals)
      else do
        let x := stepPoint S diam step x gradient
        let (v, evals) ← runTotalPass S active x evals
        runSteps S active diam remaining (step + 1) x v evals

def runDescentStart (S : Setting F) (active : List ℕ) (seedX : List Binary64)
    (stepsPerStart evals : ℕ) : Stopped (ConError F) (List Binary64 × Binary64 × ℕ) := do
  let (v, evals) ← runTotalPass S active seedX evals
  let diam := (S.domain.ranges.map fun (lo, hi) => S.ops.sub hi lo).foldl Binary64.max Binary64.zero
  runSteps S active diam stepsPerStart 0 seedX v evals

/-- The best point so far, between two starts. -/
structure Search where
  rng : Lcg
  bestX : List Binary64
  bestV : Binary64
  evals : ℕ

structure ElasticSolution where
  x : List Binary64
  totalViolation : Binary64
  violations : List Binary64
  evals : ℕ

/-- One start more has completed. -/
def completeStart : Stopped (ConError F) Unit :=
  Metered.modify fun run =>
    { run with startsCompleted := min (run.startsCompleted + 1) (2 ^ 32 - 1) }

def runStart (S : Setting F) (active : List ℕ) (limits : RestorationWorkLimits) (search : Search)
    (start : ℕ) : Stopped (ConError F) Search := do
  cp PHASE_START
  let (seed, rng) :=
    if start = 0 then (search.bestX, search.rng) else randomPoint S search.rng
  let (x, v, evals) ← runDescentStart S active seed limits.stepsPerStart search.evals
  completeStart
  if Binary64.lt v search.bestV then pure ⟨rng, x, v, evals⟩
  else pure ⟨rng, search.bestX, search.bestV, evals⟩

def maskRound (mask : SkipMask) (active : List ℕ) (i : ℕ) : Stopped (ConError F) (List ℕ) := do
  cpEvery i PHASE_SKIP_MASK
  pure (if mask.skipped.getD i false then active else active ++ [i])

/-- One constraint of the final violations. -/
def violationRound (S : Setting F) (mask : SkipMask) (x : List Binary64)
    (acc : List Binary64 × ℕ) (i : ℕ) : Stopped (ConError F) (List Binary64 × ℕ) := do
  cpEvery i PHASE_FINAL_VIOLATIONS
  if mask.skipped.getD i false then pure (acc.1 ++ [Binary64.zero], acc.2)
  else do
    let gi ← faulting (S.problem.scalarAt (S.specs.getD i default).node x)
    pure (acc.1 ++ [violationContribution gi], acc.2 + 1)

def runElastic (S : Setting F) (mask : SkipMask) (limits : RestorationWorkLimits) :
    Stopped (ConError F) ElasticSolution := do
  cp PHASE_SKIP_MASK
  let active ← (List.range S.specs.length).foldlM (maskRound mask) []
  charge PHASE_SKIP_MASK (S.specs.length * RESTORATION_UNITS_SKIP_MASK_ENTRY)
  let seed := S.domain.ranges.map fun (lo, hi) => S.ops.midpoint lo hi
  let (seedV, evals) ← runTotalPass S active seed 0
  let search ← (List.range limits.starts).foldlM (runStart S active limits)
    ⟨⟨0x1001202607070001⟩, seed, seedV, evals⟩
  let (violations, evals) ← (List.range S.specs.length).foldlM
    (violationRound S mask search.bestX) ([], search.evals)
  charge PHASE_FINAL_VIOLATIONS (active.length * RESTORATION_UNITS_CONSTRAINT_EVALUATION)
  let totalViolation ← faulting (violations.foldlM (checkedTotalViolation S.ops) Binary64.zero)
  pure ⟨search.bestX, totalViolation, violations, evals⟩

end FrankenSim.Restoration
