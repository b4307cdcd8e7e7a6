import FrankenSim.Library.Meters
import FrankenSim.Library.Refusals

/-!
# The admitted budget

A budget is admitted once against the cost of a plan. Checkpoints watch cancellation, the deadline
and the polls; charges count completed work. The first refusal is latched.
-/
namespace FrankenSim.Restoration

open Library

/-- The contract that a context carries; times are in nanoseconds. -/
structure Budget where
  deadline : Option ℕ
  pollQuota : ℕ
  costQuota : Option ℕ
  deriving DecidableEq

inductive BudgetRefusal
  | deadlineExpiredAtAdmission (deadlineNs observedNs : ℕ)
  | deadlineWithoutClock (deadlineNs : ℕ)
  | costPlanExceedsQuota (planned quota : ℕ)
  | cancelled (phase : String)
  | deadlineExpired (phase : String) (deadlineNs observedNs : ℕ)
  | pollsExhausted (phase : String) (quota : ℕ)
  | costExhausted (phase : String) (requested remaining quota : ℕ)
  deriving DecidableEq

/-- The context: its gate and its clock answer by the number of observations so far. -/
structure Cx where
  budget : Budget
  isCancelRequested : ℕ → Bool
  timeSource : Option (ℕ → ℕ)
  lease : Bool

structure AdmittedBudget where
  admitted : Budget
  clock : Option (ℕ → ℕ)
  plannedCost : ℕ
  pollsUsed : ℕ
  costCharged : ℕ
  refusal : Option BudgetRefusal

structure BudgetConsumption where
  admitted : Budget
  plannedCost : ℕ
  pollsUsed : ℕ
  costCharged : ℕ
  refusal : Option BudgetRefusal
  deriving DecidableEq

def AdmittedBudget.consumption (budget : AdmittedBudget) : BudgetConsumption :=
  ⟨budget.admitted, budget.plannedCost, budget.pollsUsed, budget.costCharged, budget.refusal⟩

/-- A deadline that has passed admits nothing. -/
def admitDeadline (admitted : Budget) (clock : Option (ℕ → ℕ)) : Except BudgetRefusal Unit :=
  match admitted.deadline, clock with
  | some deadline, some clock =>
    refuseWhen (clock 0 ≥ deadline) (.deadlineExpiredAtAdmission deadline (clock 0))
  | _, _ => .ok ()

/-- The quota has to cover the plan. -/
def admitCost (admitted : Budget) (plannedCost : ℕ) : Except BudgetRefusal Unit :=
  match admitted.costQuota with
  | some quota => refuseWhen (plannedCost > quota) (.costPlanExceedsQuota plannedCost quota)
  | none => .ok ()

def AdmittedBudget.admitWith (admitted : Budget) (plannedCost : ℕ) (clock : Option (ℕ → ℕ)) :
    Except BudgetRefusal AdmittedBudget := do
  admitDeadline admitted clock
  admitCost admitted plannedCost
  .ok ⟨admitted, clock, plannedCost, 0, 0, none⟩

def AdmittedBudget.admitAmbient (cx : Cx) (plannedCost : ℕ) :
    Except BudgetRefusal AdmittedBudget :=
  match cx.timeSource, cx.budget.deadline with
  | none, some deadline => .error (.deadlineWithoutClock deadline)
  | _, _ => admitWith cx.budget plannedCost cx.timeSource

/-- A run: its context, how often it has been observed, its budget and the finished starts. -/
structure Run where
  cx : Cx
  observed : ℕ
  budget : AdmittedBudget
  startsCompleted : ℕ

/-- A computation of a run; what it returns early is a refusal or a fault. -/
inductive Stop (E : Type)
  | refused (refusal : BudgetRefusal)
  | fault (error : E)

abbrev Stopped (E α : Type) := Metered Run (Stop E) α

variable {E α : Type}

/-- Latch a refusal. -/
def latch (refusal : BudgetRefusal) : Stopped E Unit := fun run =>
  (.error (.refused refusal), { run with budget := { run.budget with refusal := some refusal } })

/-- A checkpoint: latched refusal, cancellation, deadline, polls. -/
def cp (phase : String) : Stopped E Unit := fun run =>
  match run.budget.refusal with
  | some refusal => (.error (.refused refusal), run)
  | none =>
    let now := run.observed + 1
    let run := { run with observed := now }
    if run.cx.isCancelRequested now then latch (.cancelled phase) run
    else
      match run.budget.admitted.deadline, run.budget.clock with
      | some deadline, some clock =>
        if clock now ≥ deadline then latch (.deadlineExpired phase deadline (clock now)) run
        else countPoll phase run
      | _, _ => countPoll phase run
where
  /-- A quota of all ones is unlimited and counts nothing. -/
  countPoll (phase : String) : Stopped E Unit := fun run =>
    if run.budget.admitted.pollQuota = 2 ^ 32 - 1 then (.ok (), run)
    else if run.budget.pollsUsed ≥ run.budget.admitted.pollQuota then
      latch (.pollsExhausted phase run.budget.admitted.pollQuota) run
    else
      (.ok (), { run with budget := { run.budget with pollsUsed := run.budget.pollsUsed + 1 } })

/-- Charge completed work against the quota. -/
def charge (phase : String) (units : ℕ) : Stopped E Unit := fun run =>
  match run.budget.refusal with
  | some refusal => (.error (.refused refusal), run)
  | none =>
    let charged := run.budget.costCharged + units
    let quota := run.budget.admitted.costQuota.getD (2 ^ 64 - 1)
    if charged ≥ 2 ^ 64 ∨ charged > quota then
      latch (.costExhausted phase units (quota - run.budget.costCharged) quota) run
    else (.ok (), { run with budget := { run.budget with costCharged := charged } })

/-- The error of a step that the budget does not watch. -/
def faulting (r : Except E α) : Stopped E α := Metered.ofExcept (r.mapError .fault)

/-- The run was stopped on cost. -/
def BudgetRefusal.OnCost : BudgetRefusal → Prop
  | .costExhausted .. => True
  | _ => False

/-- The units that a run may charge. -/
def Run.allowance (run : Run) : ℕ :=
  min (run.budget.admitted.costQuota.getD (2 ^ 64 - 1)) (2 ^ 64 - 1)

def Run.StoppedOnCost (run : Run) : Prop := ∃ refusal, run.budget.refusal = some refusal ∧
  refusal.OnCost

/-- What a run has charged, against what it may charge. -/
def charges : Grade ℕ Run :=
  Grade.meter (fun run => run.budget.costCharged) Run.allowance Run.StoppedOnCost

theorem moved_latch {refusal : BudgetRefusal} (h : ¬ refusal.OnCost) (run : Run) :
    charges.moved 0 run (latch (E := E) refusal run).2 := by
  refine ⟨le_rfl, rfl, fun _ _ => ?_⟩
  rintro ⟨refusal', heq, hcost⟩
  obtain rfl : refusal = refusal' := by simpa [latch] using heq
  exact h hcost

theorem moved_countPoll (phase : String) (run : Run) :
    charges.moved 0 run (cp.countPoll (E := E) phase run).2 := by
  unfold cp.countPoll
  split_ifs
  · exact charges.refl run
  · exact moved_latch (by simp [BudgetRefusal.OnCost]) run
  · exact ⟨le_rfl, rfl, fun _ h => h⟩

theorem moved_observed (run : Run) (n : ℕ) : charges.moved 0 run { run with observed := n } :=
  ⟨le_rfl, rfl, fun _ h => h⟩

/-- A checkpoint charges nothing and does not stop on cost. -/
theorem moved_cp (phase : String) (run : Run) : charges.moved 0 run (cp (E := E) phase run).2 := by
  have hobserved := moved_observed run (run.observed + 1)
  have hthen {m : Stopped E Unit} (hm : ∀ run, charges.moved 0 run (m run).2) :
      charges.moved 0 run (m { run with observed := run.observed + 1 }).2 := by
    have h := charges.trans hobserved (hm _)
    rwa [add_zero] at h
  unfold cp
  split
  · exact charges.refl run
  · dsimp only
    split_ifs
    · exact hthen (moved_latch (by simp [BudgetRefusal.OnCost]))
    · split
      · split_ifs
        · exact hthen (moved_latch (by simp [BudgetRefusal.OnCost]))
        · exact hthen (moved_countPoll phase)
      · exact hthen (moved_countPoll phase)

/-- A charge within the allowance is recorded. -/
theorem moved_charge (phase : String) (units : ℕ) (run : Run) :
    charges.moved units run (charge (E := E) phase units run).2 := by
  unfold charge
  split
  · exact charges.mono (Nat.zero_le units) (charges.refl run)
  · dsimp only
    split_ifs with hover
    · refine ⟨by simp [latch], rfl, fun hle => ?_⟩
      simp only [Run.allowance] at hle
      omega
    · exact ⟨le_rfl, rfl, fun _ h => h⟩

theorem cp_bounds (phase : String) :
    charges.Bounds 0 (fun _ => True) (fun _ => True) (cp (E := E) phase) :=
  fun run => ⟨moved_cp phase run, fun _ _ => trivial, fun _ _ => trivial⟩

theorem charge_bounds (phase : String) (units : ℕ) :
    charges.Bounds units (fun _ => True) (fun _ => True) (charge (E := E) phase units) :=
  fun run => ⟨moved_charge phase units run, fun _ _ => trivial, fun _ _ => trivial⟩

end FrankenSim.Restoration
