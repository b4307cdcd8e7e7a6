import FrankenSim.Revolve.Chain
import Mathlib.Data.Nat.Log
import Mathlib.Data.Nat.Size
import Mathlib.Order.MinMax

/-!
# Binary treeverse

A segment is halved: a copy of its start state advances to the middle, the right
half is reversed with one more snapshot held, then the left half. The right half
is the smaller one, so the depth is the logarithm of the length.
-/
namespace FrankenSim.Revolve

variable {S B : Type*}

/-- `usize::BITS - steps.leading_zeros()`, the bit length of the number of steps. -/
def minBudget (steps : ℕ) : ℕ :=
  let leadingZeros := 64 - Nat.size steps
  64 - leadingZeros

def ceilMidpoint (first last : ℕ) : ℕ :=
  let span := last - first
  first + span / 2 + span % 2

theorem ceilMidpoint_bounds (first last : ℕ) (h : first + 2 ≤ last) :
    first < ceilMidpoint first last ∧ ceilMidpoint first last < last ∧
      last - ceilMidpoint first last = (last - first) / 2 := by
  simp only [ceilMidpoint]
  omega

section

variable (forward : ℕ → S → S) (reverse : ℕ → S → B → B)

/-- A segment is never empty, so a span of at most one is one step. -/
def sweep (state : S) (first last : ℕ) (bar : B) (p : Progress S) (depth : ℕ) : B × Progress S :=
  let p := p.hold depth
  if h : last - first ≤ 1 then (reverse first state bar, p.call first state)
  else
    let mid := ceilMidpoint first last
    let (sMid, p) := advance forward first mid state p
    let (bar, p) := sweep sMid mid last bar p (depth + 1)
    sweep state first mid bar p depth
termination_by last - first
decreasing_by
  all_goals
    have hbounds := ceilMidpoint_bounds first last (by omega)
    omega

/-- The budget is asserted; `none` is the panic. -/
def checkpointedAdjoint (x0 : S) (steps budget : ℕ) (seed : B) : Option (B × Progress S) :=
  if budget < minBudget steps then none
  else if steps = 0 then some (seed, .start)
  else some (sweep forward reverse x0 0 steps seed .start 1)

end

variable (forward : ℕ → S → S) (reverse : ℕ → S → B → B) (x0 : S)

theorem log_half (span : ℕ) (h : 2 ≤ span) : Nat.log 2 (span / 2) + 1 = Nat.log 2 span :=
  (Nat.log_of_one_lt_of_le (by decide) h).symm

theorem sweep_spec (span : ℕ) :
    ∀ (first last : ℕ) (bar : B) (p : Progress S) (depth : ℕ), last - first = span →
      first < last →
        ∃ bar' p', sweep forward reverse (trueState forward x0 first) first last bar p depth =
            (bar', p') ∧
          Reverses forward reverse x0 first last bar p bar' p' ∧
          p'.stats.peakSnapshots ≤ max p.stats.peakSnapshots (depth + Nat.log 2 span) := by
  induction span using Nat.strongRecOn with
  | ind span ih =>
    intro first last bar p depth hspan hlt
    rw [sweep]
    split
    case isTrue h =>
      obtain rfl : last = first + 1 := by omega
      refine ⟨_, _, rfl, .single (p.reversed_hold depth), ?_⟩
      exact max_le_max le_rfl (Nat.le_add_right depth _)
    case isFalse h =>
      obtain ⟨hfirst, hlast, hright⟩ := ceilMidpoint_bounds first last (by omega)
      obtain ⟨q, hq, hqreversed, hqpeak⟩ :=
        advance_spec forward x0 hfirst.le (p.hold depth)
      obtain ⟨bar₁, p₁, hsweep₁, hreverses₁, hpeak₁⟩ :=
        ih _ (by omega) (ceilMidpoint first last) last bar q (depth + 1) rfl hlast
      obtain ⟨bar₂, p₂, hsweep₂, hreverses₂, hpeak₂⟩ :=
        ih _ (by omega) first (ceilMidpoint first last) bar₁ p₁ depth rfl hfirst
      have hlog := log_half span (by omega)
      have hmono : Nat.log 2 (ceilMidpoint first last - first) ≤ Nat.log 2 span :=
        Nat.log_mono_right (by omega)
      rw [hright, hspan] at hpeak₁
      rw [hqpeak, Progress.peak_hold] at hpeak₁
      simp only [hq, hsweep₁, hsweep₂]
      refine ⟨_, _, rfl, hreverses₁.join hfirst.le hlast.le hqreversed hreverses₂, ?_⟩
      omega

/-- Treeverse reverses the chain within the logarithmic budget. -/
theorem checkpointedAdjoint_spec {steps budget : ℕ} (hbudget : minBudget steps ≤ budget)
    (seed : B) :
    ∃ p, checkpointedAdjoint forward reverse x0 steps budget seed =
        some (fullAdjoint forward reverse x0 steps seed, p) ∧
      p.reversed = callsDown forward x0 0 steps ∧
      p.stats.peakSnapshots ≤ Nat.log 2 steps + 1 := by
  unfold checkpointedAdjoint
  rw [if_neg (not_lt_of_ge hbudget)]
  split
  case isTrue h =>
    subst h
    exact ⟨.start, rfl, rfl, Nat.zero_le _⟩
  case isFalse h =>
    obtain ⟨bar, p, hsweep, hreverses, hpeak⟩ := sweep_spec forward reverse x0 steps 0 steps seed
      .start 1 rfl (Nat.pos_of_ne_zero h)
    rw [trueState] at hsweep
    rw [hsweep, hreverses.bar_eq, ← fullAdjoint_eq]
    refine ⟨p, rfl, hreverses.reversed, ?_⟩
    simp only [Progress.start] at hpeak
    omega

end FrankenSim.Revolve
