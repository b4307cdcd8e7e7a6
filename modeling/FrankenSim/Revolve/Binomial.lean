import FrankenSim.Library.Words
import FrankenSim.Library.Refusals
import FrankenSim.Revolve.Chain
import Mathlib.Data.Nat.Choose.Basic

/-!
# The binomial schedule

The capacity of `s` snapshots and `r` sweeps is a binomial coefficient. A split
is the cheapest of the break points of the cost formula, and the right part of a
segment is swept with one slot less. Arithmetic that leaves its machine type and
a failed assertion are panics.
-/
namespace FrankenSim.Revolve

open Library

inductive Panic
  | overflow
  | noSnapshots
  deriving DecidableEq, Repr

def u64Max : ℕ := wordMax 64

def addUsize (a b : ℕ) : Except Panic ℕ :=
  if a + b ≤ u64Max then .ok (a + b) else .error .overflow

def mulU64 (a b : ℕ) : Except Panic ℕ := if a * b ≤ u64Max then .ok (a * b) else .error .overflow

def subU64 (a b : ℕ) : Except Panic ℕ := if b ≤ a then .ok (a - b) else .error .overflow

def saturatingAdd (a b : ℕ) : ℕ := min (a + b) u64Max

/-- The product of the capacity, factor by factor; the accumulator is a saturating
`u128`, and a capacity beyond `u64` ends the loop. -/
def betaLoop (low : ℕ) : ℕ → ℕ → ℕ → ℕ
  | 0, _, acc => acc
  | count + 1, i, acc =>
    let acc := min (acc * (low + i)) (wordMax 128) / i
    if u64Max < acc then u64Max else betaLoop low count (i + 1) acc

/-- The longest chain that `s` snapshots reverse with `r` sweeps over any step. -/
def beta (s r : ℕ) : Except Panic ℕ := do
  let n ← addUsize s r
  let k := min s r
  return betaLoop (n - k) k 1 1

/-- The capacity grows by at least one with `r`, so `fuel = l` rounds are enough. -/
def repsLoop (l s : ℕ) : ℕ → ℕ → Except Panic ℕ
  | 0, r => .ok r
  | fuel + 1, r => do
    if (← beta s r) < l then repsLoop l s fuel (r + 1) else return r

/-- The smallest number of sweeps with a sufficient capacity. -/
def reps (l s : ℕ) : Except Panic ℕ :=
  if s < 1 then .error .noSnapshots else repsLoop l s l 0

/-- The forward evaluations of `steps` steps with `budget` snapshots. -/
def binomialReevals (steps budget : ℕ) : Except Panic ℕ :=
  if steps ≤ 1 then .ok 0
  else do
    let r ← reps steps budget
    if r = 0 then return 0
    else do
      let product ← mulU64 r steps
      let slots ← addUsize budget 1
      subU64 product (← beta slots (r - 1))

def tOpt (l s : ℕ) : Except Panic ℕ :=
  if l ≤ 1 then .ok 0
  else if s = 0 then .ok (u64Max / 4)
  else do
    let r ← reps l s
    let product ← mulU64 r l
    let slots ← addUsize s 1
    let rounds ← subU64 r 1
    subU64 product (← beta slots rounds)

/-- A place to split a segment of `l` steps into two that are not empty. -/
def Split (l : ℕ) : Type := {lhat : ℕ // 1 ≤ lhat ∧ lhat < l}

def consider {l : ℕ} (s lhat : ℕ) (best : ℕ × Split l) : Except Panic (ℕ × Split l) :=
  if h : 1 ≤ lhat ∧ lhat < l then do
    let left ← tOpt lhat s
    let right ← tOpt (l - lhat) (s - 1)
    let cost := saturatingAdd (saturatingAdd lhat left) right
    if cost < best.1 ∨ cost = best.1 ∧ lhat < best.2.1 then return (cost, ⟨lhat, h⟩)
    else return best
  else return best

/-- The two break points of one repetition number. -/
def considerBoth {l : ℕ} (s : ℕ) (best : ℕ × Split l) (rho : ℕ) : Except Panic (ℕ × Split l) := do
  let best ← consider s (min (← beta s rho) (l - 1)) best
  consider s (max (l - (← beta (s - 1) rho)) 1) best

def binomialSplit {l : ℕ} (h : 1 < l) (s : ℕ) : Except Panic (Split l) := do
  let r ← reps l s
  let best ← (List.range (r + 1)).foldlM (considerBoth s) (u64Max, ⟨1, le_rfl, h⟩)
  return best.2

section

variable {S B : Type} (forward : ℕ → S → S) (reverse : ℕ → S → B → B)

def binomialSweep (state : S) (first last slots : ℕ) (bar : B) (p : Progress S) (held : ℕ) :
    Except Panic (B × Progress S) := do
  let p := p.hold held
  if h : last - first ≤ 1 then return (reverse first state bar, p.call first state)
  else
    let lhat ← binomialSplit (not_le.1 h) slots
    let mid := first + lhat.1
    let (sMid, p) := advance forward first mid state p
    let (bar, p) ← binomialSweep sMid mid last (slots - 1) bar p (held + 1)
    binomialSweep state first mid slots bar p held
termination_by last - first
decreasing_by
  all_goals
    have hlow := lhat.2.1
    have hhigh := lhat.2.2
    omega

def checkpointedAdjointBinomial (x0 : S) (steps budget : ℕ) (seed : B) :
    Except Panic (B × Progress S) :=
  if steps = 0 then .ok (seed, .start)
  else if budget < 1 then .error .noSnapshots
  else binomialSweep forward reverse x0 0 steps budget seed .start 1

end

end FrankenSim.Revolve
