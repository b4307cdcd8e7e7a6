import FrankenSim.Library.Runs
import Mathlib.Data.List.FinRange
import Mathlib.Logic.Function.Basic

/-!
# The speculative race protocol

`Racer::race_with_gate` runs every branch on a thread of its own. A branch runs
its body, contends for the leadership under the decision lock when its value is
accepted, requests the gates of the branches that can no longer win after the
lock is released, records its entry in its slot, and scans all slots to release
the watcher. Each of these is a step of its own here, so a run is an arbitrary
interleaving of the threads. The result is rebuilt from the slots after the join.
-/
namespace FrankenSim.Race

open Library

inductive ExecMode
  | deterministic
  | fast
  deriving DecidableEq, Repr

def ExecMode.name : ExecMode → String
  | .deterministic => "deterministic"
  | .fast => "fast"

/-- What happened to one branch. -/
inductive BranchOutcome
  | won
  | outraced
  | rejected
  | cancelled
  | panicked (message : String)
  deriving DecidableEq, Repr

structure BranchReport where
  name : String
  index : ℕ
  outcome : BranchOutcome
  deriving DecidableEq, Repr

structure RaceRun (T : Type*) where
  winner : ℕ
  value : T
  reports : List BranchReport
  mode : String
  deriving DecidableEq, Repr

structure NoWinner where
  reports : List BranchReport
  mode : String
  deriving DecidableEq, Repr

/-- The payload of a caught panic: a `&str` or `String`, or something else. -/
inductive PanicPayload
  | text (message : String)
  | other
  deriving DecidableEq, Repr

def PanicPayload.message : PanicPayload → String
  | .text message => message
  | .other => "non-string panic payload"

/-- How the body of a branch ends. -/
inductive BodyResult (T : Type*)
  | value (v : T)
  | cancelled
  | panicked (payload : PanicPayload)
  deriving DecidableEq, Repr

/-- A branch, with the outcome its body has when its gate is never requested. -/
structure RaceBranch (T : Type*) where
  name : String
  natural : BodyResult T
  deriving DecidableEq, Repr

/-- One call of the racer. -/
structure Setup (T : Type*) where
  branches : List (RaceBranch T)
  accept : T → Bool
  mode : ExecMode

/-- What a branch records in its slot. -/
abbrev Entry (T : Type*) := Except BranchOutcome T

/-- The shared decision: the lowest accepted index so far (deterministic), or
the first accepted arrival (fast). -/
structure Decision (n : ℕ) where
  leader : Option (Fin n)
  deriving DecidableEq, Repr

/-- Where the thread of one branch stands. -/
inductive Phase (T : Type*) (n : ℕ)
  | idle
  | folding
  | running
  | returned (result : BodyResult T)
  | killing (value : T) (leader : Fin n) (next : ℕ)
  | recording (entry : Entry T)
  | scanning (next : ℕ)
  | done
  deriving DecidableEq, Repr

/-- Where the watcher thread stands. -/
inductive Watcher
  | polling
  | checking
  | requesting (next : ℕ)
  | returned
  deriving DecidableEq, Repr

/-- The state shared by the threads of one race. -/
structure State (T : Type*) (n : ℕ) where
  phases : Fin n → Phase T n
  gates : Fin n → Bool
  slots : Fin n → Option (Entry T)
  decision : Decision n
  raceDone : Bool
  watcher : Watcher
  parent : Bool

inductive Action (n : ℕ)
  | requestParent
  | watcherPoll
  | watcherCheck
  | watcherRequest
  | spawn (i : Fin n)
  | fold (i : Fin n)
  | finish (i : Fin n)
  | drain (i : Fin n)
  | lock (i : Fin n)
  | refuse (i : Fin n)
  | kill (i : Fin n)
  | record (i : Fin n)
  | scan (i : Fin n)
  deriving DecidableEq, Repr

variable {T : Type*} {n : ℕ}

def init (T : Type*) (n : ℕ) : State T n where
  phases _ := .idle
  gates _ := false
  slots _ := none
  decision := ⟨none⟩
  raceDone := false
  watcher := .polling
  parent := false

/-- Whether a branch takes the leadership when it holds the lock. -/
def leads (mode : ExecMode) (i : Fin n) : Option (Fin n) → Bool
  | none => true
  | some l =>
    match mode with
    | .deterministic => decide (i < l)
    | .fast => false

/-- Whether a branch can no longer win under a leader. -/
def doomed (mode : ExecMode) (leader j : Fin n) : Bool :=
  match mode with
  | .deterministic => decide (leader < j)
  | .fast => decide (j ≠ leader)

/-- The entry of a branch whose value was not accepted. -/
def refusalEntry : BodyResult T → BranchOutcome
  | .value _ => .rejected
  | .cancelled => .cancelled
  | .panicked payload => .panicked payload.message

namespace State

def setPhase (s : State T n) (i : Fin n) (p : Phase T n) : State T n :=
  { s with phases := Function.update s.phases i p }

def request (s : State T n) (i : Fin n) : State T n :=
  { s with gates := Function.update s.gates i true }

def record (s : State T n) (i : Fin n) (entry : Entry T) : State T n :=
  { s with slots := Function.update s.slots i (some entry) }

end State

open State

/-- One step of one thread. A running body returns its natural outcome (`finish`),
or `Cancelled` once its own gate has been requested (`drain`). -/
def step (r : Setup T) (s : State T r.branches.length) :
    Action r.branches.length → Option (State T r.branches.length)
  | .requestParent => some { s with parent := true }
  | .watcherPoll =>
    match s.watcher with
    | .polling => some { s with watcher := if s.raceDone then .returned else .checking }
    | _ => none
  | .watcherCheck =>
    match s.watcher with
    | .checking => some { s with watcher := if s.parent then .requesting 0 else .polling }
    | _ => none
  | .watcherRequest =>
    match s.watcher with
    | .requesting j =>
      if h : j < r.branches.length then
        some { s.request ⟨j, h⟩ with watcher := .requesting (j + 1) }
      else some { s with watcher := .returned }
    | _ => none
  | .spawn i =>
    match s.phases i with
    | .idle => some (s.setPhase i (if s.parent then .folding else .running))
    | _ => none
  | .fold i =>
    match s.phases i with
    | .folding => some ((s.request i).setPhase i .running)
    | _ => none
  | .finish i =>
    match s.phases i with
    | .running => some (s.setPhase i (.returned r.branches[i].natural))
    | _ => none
  | .drain i =>
    match s.phases i with
    | .running => if s.gates i then some (s.setPhase i (.returned .cancelled)) else none
    | _ => none
  | .lock i =>
    match s.phases i with
    | .returned (.value v) =>
      if r.accept v then
        let leader := if leads r.mode i s.decision.leader then some i else s.decision.leader
        some ({ s with decision := ⟨leader⟩ }.setPhase i (.killing v (leader.getD i) 0))
      else none
    | _ => none
  | .refuse i =>
    match s.phases i with
    | .returned (.value v) =>
      if r.accept v then none
      else some (s.setPhase i (.recording (.error (refusalEntry (.value v)))))
    | .returned result => some (s.setPhase i (.recording (.error (refusalEntry result))))
    | _ => none
  | .kill i =>
    match s.phases i with
    | .killing v l j =>
      if h : j < r.branches.length then
        let s' := if doomed r.mode l ⟨j, h⟩ then s.request ⟨j, h⟩ else s
        some (s'.setPhase i (.killing v l (j + 1)))
      else some (s.setPhase i (.recording (.ok v)))
    | _ => none
  | .record i =>
    match s.phases i with
    | .recording entry => some ((s.record i entry).setPhase i (.scanning 0))
    | _ => none
  | .scan i =>
    match s.phases i with
    | .scanning j =>
      if h : j < r.branches.length then
        if (s.slots ⟨j, h⟩).isSome then some (s.setPhase i (.scanning (j + 1)))
        else some (s.setPhase i .done)
      else some ({ s with raceDone := true }.setPhase i .done)
    | _ => none

/-- The branch whose thread takes an action. -/
def Action.thread : Action n → Option (Fin n)
  | .spawn i | .fold i | .finish i | .drain i | .lock i | .refuse i | .kill i | .record i
  | .scan i => some i
  | _ => none

/-- What one step of the thread of branch `i` does. -/
inductive Move (r : Setup T) (s : State T r.branches.length) (i : Fin r.branches.length) :
    Action r.branches.length → State T r.branches.length → Prop
  | spawn : s.phases i = .idle →
      Move r s i (.spawn i) (s.setPhase i (if s.parent then .folding else .running))
  | fold : s.phases i = .folding → Move r s i (.fold i) ((s.request i).setPhase i .running)
  | finish : s.phases i = .running →
      Move r s i (.finish i) (s.setPhase i (.returned (r.branches.get i).natural))
  | drain : s.phases i = .running → s.gates i = true →
      Move r s i (.drain i) (s.setPhase i (.returned .cancelled))
  | lock {v leader} : s.phases i = .returned (.value v) → r.accept v = true →
      leader = (if leads r.mode i s.decision.leader then some i else s.decision.leader) →
      Move r s i (.lock i)
        ({ s with decision := ⟨leader⟩ }.setPhase i (.killing v (leader.getD i) 0))
  | refuse {result} : s.phases i = .returned result →
      (∀ v, result = .value v → r.accept v = false) →
      Move r s i (.refuse i) (s.setPhase i (.recording (.error (refusalEntry result))))
  | kill {v l} {j : Fin r.branches.length} : s.phases i = .killing v l j →
      Move r s i (.kill i)
        ((if doomed r.mode l j then s.request j else s).setPhase i (.killing v l (j + 1)))
  | killed {v l j} : s.phases i = .killing v l j → r.branches.length ≤ j →
      Move r s i (.kill i) (s.setPhase i (.recording (.ok v)))
  | record {entry} : s.phases i = .recording entry →
      Move r s i (.record i) ((s.record i entry).setPhase i (.scanning 0))
  | scan {j : Fin r.branches.length} : s.phases i = .scanning j → (s.slots j).isSome = true →
      Move r s i (.scan i) (s.setPhase i (.scanning (j + 1)))
  | missing {j : Fin r.branches.length} : s.phases i = .scanning j → s.slots j = none →
      Move r s i (.scan i) (s.setPhase i .done)
  | release {j} : s.phases i = .scanning j → r.branches.length ≤ j →
      Move r s i (.scan i) ({ s with raceDone := true }.setPhase i .done)

theorem step_move {r : Setup T} {s t : State T r.branches.length} {i : Fin r.branches.length}
    {a : Action r.branches.length} (ha : a.thread = some i) (h : step r s a = some t) :
    Move r s i a t := by
  cases a with
  | requestParent | watcherPoll | watcherCheck | watcherRequest => cases ha
  | spawn | fold | finish | record =>
    cases ha
    simp only [step] at h
    split at h <;> cases h
    constructor
    assumption
  | drain =>
    cases ha
    simp only [step] at h
    split at h
    · split_ifs at h with hg
      cases h
      exact .drain ‹_› hg
    · cases h
  | lock =>
    cases ha
    simp only [step] at h
    split at h
    · rename_i v hp
      by_cases hacc : r.accept v
      · rw [if_pos hacc] at h
        cases h
        exact .lock hp hacc rfl
      · simp [hacc] at h
    · cases h
  | refuse =>
    cases ha
    simp only [step] at h
    split at h
    · rename_i v hp
      split_ifs at h with hacc
      cases h
      refine .refuse hp fun u hu => ?_
      cases hu
      simpa using hacc
    · rename_i result hne hp
      cases h
      exact .refuse hp fun v hv => absurd hv (hne v)
    · cases h
  | kill =>
    cases ha
    simp only [step] at h
    split at h
    · rename_i v l j hp
      split_ifs at h with hj hd
      · cases h
        have hmove := Move.kill (r := r) (s := s) (i := i) (j := ⟨j, hj⟩) hp
        rwa [if_pos hd] at hmove
      · cases h
        have hmove := Move.kill (r := r) (s := s) (i := i) (j := ⟨j, hj⟩) hp
        rwa [if_neg hd] at hmove
      · cases h
        exact .killed hp (not_lt.1 hj)
    · cases h
  | scan =>
    cases ha
    simp only [step] at h
    split at h
    · rename_i j hp
      split_ifs at h with hj hs
      · cases h
        exact .scan (j := ⟨j, hj⟩) hp hs
      · cases h
        exact .missing (j := ⟨j, hj⟩) hp (by simpa using hs)
      · cases h
        exact .release hp (not_lt.1 hj)
    · cases h

/-- Every branch thread and the watcher have ended, so the scope is joined. -/
def Joined (s : State T n) : Prop :=
  (∀ i, s.phases i = .done) ∧ s.watcher = .returned

/-- Whether the result in a slot takes the victory. -/
def takes (mode : ExecMode) (recordedLeader : Option (Fin n)) (winner : Option (Fin n × T))
    (index : Fin n) : Bool :=
  match mode with
  | .deterministic => winner.isNone
  | .fast => decide (recordedLeader = some index)

/-- One round of the decision loop. An empty slot is the failed `expect`. -/
def tally (r : Setup T) (s : State T r.branches.length)
    (acc : Option (Fin r.branches.length × T) × List BranchReport)
    (index : Fin r.branches.length) :
    Option (Option (Fin r.branches.length × T) × List BranchReport) :=
  let report := fun outcome => ⟨r.branches[index].name, index, outcome⟩
  match s.slots index with
  | none => none
  | some (.ok value) =>
    if takes r.mode s.decision.leader acc.1 index then
      some (some (index, value), acc.2 ++ [report .won])
    else some (acc.1, acc.2 ++ [report .outraced])
  | some (.error outcome) => some (acc.1, acc.2 ++ [report outcome])

/-- The result of the call, decided from the slots after the join. -/
def result (r : Setup T) (s : State T r.branches.length) :
    Option (Except NoWinner (RaceRun T)) :=
  if r.branches.length = 0 then some (.error ⟨[], r.mode.name⟩)
  else
    ((List.finRange r.branches.length).foldlM (tally r s) (none, [])).map fun
      | (some (winner, value), reports) => .ok ⟨winner, value, reports, r.mode.name⟩
      | (none, reports) => .error ⟨reports, r.mode.name⟩

end FrankenSim.Race
