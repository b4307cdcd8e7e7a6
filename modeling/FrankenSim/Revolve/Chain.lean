import Mathlib.Data.List.Basic
import Mathlib.Order.Basic
import Mathlib.Tactic.Common

/-!
# Reversing a chain of steps

A chain is a start state and a forward step for every index. Its adjoint pulls a
seed back through the steps, last step first, each time at the state before the
step. A sweep keeps the counters of the program and the calls of `reverse` in
the order they are made.
-/
namespace FrankenSim.Revolve

structure RevolveStats where
  forwardSteps : ℕ
  peakSnapshots : ℕ
  deriving DecidableEq, Repr

/-- What a sweep has counted, and the calls of `reverse` it has made. -/
structure Progress (S : Type*) where
  stats : RevolveStats
  reversed : List (ℕ × S)

namespace Progress

variable {S : Type*}

def start : Progress S := ⟨⟨0, 0⟩, []⟩

def hold (p : Progress S) (held : ℕ) : Progress S :=
  { p with stats := { p.stats with peakSnapshots := max p.stats.peakSnapshots held } }

def step (p : Progress S) : Progress S :=
  { p with stats := { p.stats with forwardSteps := p.stats.forwardSteps + 1 } }

def call (p : Progress S) (i : ℕ) (state : S) : Progress S :=
  { p with reversed := p.reversed ++ [(i, state)] }

@[simp] theorem reversed_hold (p : Progress S) (held : ℕ) : (p.hold held).reversed = p.reversed :=
  rfl

@[simp] theorem peak_hold (p : Progress S) (held : ℕ) :
    (p.hold held).stats.peakSnapshots = max p.stats.peakSnapshots held := rfl

@[simp] theorem reversed_step (p : Progress S) : p.step.reversed = p.reversed := rfl

@[simp] theorem peak_step (p : Progress S) : p.step.stats.peakSnapshots = p.stats.peakSnapshots :=
  rfl

@[simp] theorem reversed_call (p : Progress S) (i : ℕ) (state : S) :
    (p.call i state).reversed = p.reversed ++ [(i, state)] := rfl

@[simp] theorem peak_call (p : Progress S) (i : ℕ) (state : S) :
    (p.call i state).stats.peakSnapshots = p.stats.peakSnapshots := rfl

end Progress

variable {S B : Type*}

section Chain

variable (forward : ℕ → S → S) (reverse : ℕ → S → B → B) (x0 : S)

/-- The full-storage adjoint. Every state is in the list by the time it is read. -/
def fullAdjoint (steps : ℕ) (seed : B) : B :=
  let states := (List.range steps).foldl
    (fun states i => states ++ [forward i (states.getD i x0)]) [x0]
  (List.range steps).reverse.foldl (fun bar i => reverse i (states.getD i x0) bar) seed

/-- The loop that advances a state from one step to a later one. -/
def advance (first last : ℕ) (state : S) (p : Progress S) : S × Progress S :=
  (List.range' first (last - first)).foldl (fun q i => (forward i q.1, q.2.step)) (state, p)

def trueState : ℕ → S
  | 0 => x0
  | i + 1 => forward i (trueState i)

/-- The calls that reverse the steps from `last` down to `first`. -/
def callsDown (first last : ℕ) : List (ℕ × S) :=
  (List.range' first (last - first)).reverse.map fun i => (i, trueState forward x0 i)

/-- A seed pulled back through a list of calls. -/
def pullBack (calls : List (ℕ × S)) (bar : B) : B :=
  calls.foldl (fun bar call => reverse call.1 call.2 bar) bar

end Chain

variable {forward : ℕ → S → S} {reverse : ℕ → S → B → B} {x0 : S}

theorem states_eq (steps : ℕ) :
    (List.range steps).foldl (fun states i => states ++ [forward i (states.getD i x0)]) [x0] =
      (List.range (steps + 1)).map (trueState forward x0) := by
  induction steps with
  | zero => rfl
  | succ steps ih =>
    rw [List.range_succ, List.foldl_append, ih, List.range_succ (n := steps + 1), List.map_append]
    simp [List.getD_eq_getElem?_getD, trueState]

theorem callsDown_zero (steps : ℕ) :
    callsDown forward x0 0 steps =
      (List.range steps).reverse.map fun i => (i, trueState forward x0 i) := by
  rw [callsDown, Nat.sub_zero, List.range_eq_range']

/-- The full-storage adjoint pulls the seed back through all steps. -/
theorem fullAdjoint_eq (steps : ℕ) (seed : B) :
    fullAdjoint forward reverse x0 steps seed =
      pullBack reverse (callsDown forward x0 0 steps) seed := by
  unfold fullAdjoint
  rw [states_eq, callsDown_zero, pullBack, List.foldl_map]
  apply List.foldl_ext
  intro bar i hi
  have hlt : i < steps := by simpa using hi
  simp [List.getD_eq_getElem?_getD, Nat.lt_succ_of_lt hlt]

theorem callsDown_self (i : ℕ) :
    callsDown forward x0 i (i + 1) = [(i, trueState forward x0 i)] := by
  simp [callsDown]

/-- The right part of a segment is reversed before the left part. -/
theorem callsDown_append {first mid last : ℕ} (hmid : first ≤ mid) (hlast : mid ≤ last) :
    callsDown forward x0 mid last ++ callsDown forward x0 first mid =
      callsDown forward x0 first last := by
  have hrange : List.range' first (last - first) =
      List.range' first (mid - first) ++ List.range' mid (last - mid) := by
    have happend := @List.range'_append first (mid - first) (last - mid) 1
    rw [Nat.one_mul, Nat.add_sub_cancel' hmid] at happend
    rw [happend]
    congr 1
    omega
  rw [callsDown, callsDown, callsDown, hrange, List.reverse_append, List.map_append]

theorem pullBack_append (calls calls' : List (ℕ × S)) (bar : B) :
    pullBack reverse (calls ++ calls') bar = pullBack reverse calls' (pullBack reverse calls bar) :=
  List.foldl_append

theorem foldl_advance (forward : ℕ → S → S) (x0 : S) (first count : ℕ) (p : Progress S) :
    ∃ q, (List.range' first count).foldl (fun q i => (forward i q.1, q.2.step))
        (trueState forward x0 first, p) = (trueState forward x0 (first + count), q) ∧
      q.reversed = p.reversed ∧ q.stats.peakSnapshots = p.stats.peakSnapshots := by
  induction count with
  | zero => exact ⟨p, rfl, rfl, rfl⟩
  | succ count ih =>
    obtain ⟨q, hq, hreversed, hpeak⟩ := ih
    rw [List.range'_1_concat, List.foldl_append, hq]
    exact ⟨q.step, rfl, hreversed, hpeak⟩

/-- Advancing a true state reaches the true state, and calls nothing else. -/
theorem advance_spec (forward : ℕ → S → S) (x0 : S) {first last : ℕ} (h : first ≤ last) (p : Progress S) :
    ∃ q, advance forward first last (trueState forward x0 first) p =
        (trueState forward x0 last, q) ∧
      q.reversed = p.reversed ∧ q.stats.peakSnapshots = p.stats.peakSnapshots := by
  obtain ⟨q, hq⟩ := foldl_advance forward x0 first (last - first) p
  rw [Nat.add_sub_cancel' h] at hq
  exact ⟨q, hq⟩

/-- A sweep over a segment reverses exactly its steps. -/
structure Reverses (forward : ℕ → S → S) (reverse : ℕ → S → B → B) (x0 : S) (first last : ℕ)
    (bar : B) (p : Progress S) (bar' : B) (p' : Progress S) : Prop where
  reversed : p'.reversed = p.reversed ++ callsDown forward x0 first last
  bar_eq : bar' = pullBack reverse (callsDown forward x0 first last) bar

theorem Reverses.single {first : ℕ} {bar : B} {p q : Progress S}
    (hq : q.reversed = p.reversed) :
    Reverses forward reverse x0 first (first + 1) bar p
      (reverse first (trueState forward x0 first) bar) (q.call first (trueState forward x0 first)) where
  reversed := by rw [callsDown_self, Progress.reversed_call, hq]
  bar_eq := by rw [callsDown_self]; rfl

/-- Reversing the right part and then the left part reverses the segment. -/
theorem Reverses.join {first mid last : ℕ} {bar bar' bar'' : B} {p q p' p'' : Progress S}
    (hmid : first ≤ mid) (hlast : mid ≤ last) (hq : q.reversed = p.reversed)
    (hright : Reverses forward reverse x0 mid last bar q bar' p')
    (hleft : Reverses forward reverse x0 first mid bar' p' bar'' p'') :
    Reverses forward reverse x0 first last bar p bar'' p'' where
  reversed := by
    rw [hleft.reversed, hright.reversed, hq, List.append_assoc, callsDown_append hmid hlast]
  bar_eq := by
    rw [hleft.bar_eq, hright.bar_eq, ← pullBack_append, callsDown_append hmid hlast]

end FrankenSim.Revolve
