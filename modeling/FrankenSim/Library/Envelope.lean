import Mathlib.Logic.Function.Basic
import Mathlib.Tactic

/-!
# Capacity envelopes

An envelope is a bounded account. Its occupied bytes are held as charges, staged
for publication, or lent to nested envelopes, and cumulative counters record what
was granted, returned, published, delegated and reclaimed. A ledger is a family of
envelopes; a move changes one of them. A balanced envelope stays balanced under
every enabled move.
-/
namespace FrankenSim.Library

/-- Cumulative grants, and where the granted amounts are now. -/
@[ext] structure Flow where
  granted : ℕ
  returned : ℕ
  published : ℕ
  charged : ℕ
  staged : ℕ

namespace Flow

inductive Move
  | grant (b : ℕ)
  | release (b : ℕ)
  | stage (b : ℕ)
  | publish (b : ℕ)
  | unstage (b : ℕ)

def Move.apply (f : Flow) : Move → Flow
  | grant b => { f with granted := f.granted + b, charged := f.charged + b }
  | release b => { f with returned := f.returned + b, charged := f.charged - b }
  | stage b => { f with charged := f.charged - b, staged := f.staged + b }
  | publish b => { f with published := f.published + b, staged := f.staged - b }
  | unstage b => { f with returned := f.returned + b, staged := f.staged - b }

/-- A move takes from what is there and keeps the cumulative grants in range. -/
def Move.Enabled (bound : ℕ) (f : Flow) : Move → Prop
  | grant b => f.granted + b < bound
  | release b | stage b => b ≤ f.charged
  | publish b | unstage b => b ≤ f.staged

structure Conserved (bound : ℕ) (f : Flow) : Prop where
  granted_eq : f.granted = f.returned + f.published + f.charged + f.staged
  granted_lt : f.granted < bound

theorem Conserved.apply {bound : ℕ} {f : Flow} (h : f.Conserved bound) {m : Move}
    (hm : m.Enabled bound f) : (m.apply f).Conserved bound := by
  obtain ⟨heq, hlt⟩ := h
  cases m <;> simp only [Move.Enabled] at hm <;> constructor <;> simp only [Move.apply] <;> omega

end Flow

@[ext] structure Envelope where
  limit : ℕ
  used : ℕ
  peak : ℕ
  flow : Flow
  delegated : ℕ
  reclaimed : ℕ
  children : ℕ
  nested : ℕ
  nestedCount : ℕ
  closed : Bool

namespace Envelope

/-- A fresh envelope of a given capacity. -/
def fresh (limit : ℕ) : Envelope := ⟨limit, 0, 0, ⟨0, 0, 0, 0, 0⟩, 0, 0, 0, 0, 0, false⟩

inductive Move
  | flow (m : Flow.Move)
  | lend (b : ℕ)
  | reclaim (b : ℕ)
  | close

/-- What a flow occupies after a move. -/
def occupied (used : ℕ) : Flow.Move → ℕ
  | .grant b => used + b
  | .stage _ => used
  | .release b | .publish b | .unstage b => used - b

def Move.apply (e : Envelope) : Move → Envelope
  | flow m =>
    let used := occupied e.used m
    { e with flow := m.apply e.flow, used, peak := max e.peak used }
  | lend b =>
    { e with
      used := e.used + b
      peak := max e.peak (e.used + b)
      delegated := e.delegated + b
      children := e.children + 1
      nested := e.nested + b
      nestedCount := e.nestedCount + 1 }
  | reclaim b =>
    { e with
      used := e.used - b
      reclaimed := e.reclaimed + b
      children := e.children - 1
      nested := e.nested - b
      nestedCount := e.nestedCount - 1 }
  | close => { e with closed := true }

/-- An open envelope moves within its limit; it closes when it is empty. -/
def Move.Enabled (bound : ℕ) (e : Envelope) : Move → Prop
  | flow m => e.closed = false ∧ m.Enabled bound e.flow ∧ occupied e.used m ≤ e.limit
  | lend b => e.closed = false ∧ e.used + b ≤ e.limit ∧ e.delegated + b < bound
  | reclaim b => b ≤ e.nested ∧ 0 < e.nestedCount
  | close => e.used = 0 ∧ e.nestedCount = 0

structure Balanced (bound : ℕ) (e : Envelope) : Prop where
  flow : e.flow.Conserved bound
  used_eq : e.used = e.flow.charged + e.flow.staged + e.nested
  used_le_peak : e.used ≤ e.peak
  peak_le_limit : e.peak ≤ e.limit
  delegated_eq : e.delegated = e.reclaimed + e.nested
  delegated_lt : e.delegated < bound
  children_eq : e.children = e.nestedCount
  closed_empty : e.closed = true → e.used = 0 ∧ e.nestedCount = 0

theorem balanced_fresh {bound : ℕ} (hbound : 0 < bound) (limit : ℕ) :
    (fresh limit).Balanced bound := by
  refine ⟨⟨rfl, hbound⟩, rfl, ?_, ?_, rfl, hbound, rfl, ?_⟩ <;> simp [fresh]

theorem Balanced.apply {bound : ℕ} {e : Envelope} (h : e.Balanced bound) {m : Move}
    (hm : m.Enabled bound e) : (m.apply e).Balanced bound := by
  obtain ⟨hflow, hused, hpeak, hlimit, hdelegated, hbound, hchildren, hclosed⟩ := h
  cases m with
  | flow m =>
    obtain ⟨hopen, henabled, hfits⟩ := hm
    refine ⟨hflow.apply henabled, ?_, le_max_right _ _, max_le hlimit hfits, hdelegated, hbound,
      hchildren, fun h => ?_⟩
    · cases m <;> simp only [Flow.Move.Enabled] at henabled <;>
        simp only [Move.apply, Flow.Move.apply, occupied] <;> omega
    · rw [show (Move.apply e (.flow m)).closed = e.closed from rfl, hopen] at h
      cases h
  | lend b =>
    obtain ⟨hopen, hfits, hlt⟩ := hm
    refine ⟨hflow, ?_, le_max_right _ _, max_le hlimit hfits, ?_, hlt, ?_, fun h => ?_⟩
    · simp only [Move.apply]
      omega
    · simp only [Move.apply]
      omega
    · simp only [Move.apply]
      omega
    · rw [show (Move.apply e (.lend b)).closed = e.closed from rfl, hopen] at h
      cases h
  | reclaim b =>
    obtain ⟨hnested, hcount⟩ := hm
    refine ⟨hflow, ?_, ?_, hlimit, ?_, hbound, ?_, fun h => ?_⟩
    · simp only [Move.apply]
      omega
    · simp only [Move.apply]
      omega
    · simp only [Move.apply]
      omega
    · simp only [Move.apply]
      omega
    · have hempty := hclosed h
      omega
  | close => exact ⟨hflow, hused, hpeak, hlimit, hdelegated, hbound, hchildren, fun _ => hm⟩

end Envelope

/-- A family of envelopes. -/
abbrev Ledger (ι : Type*) := ι → Envelope

namespace Ledger

variable {ι : Type*} [DecidableEq ι]

def Balanced (bound : ℕ) (L : Ledger ι) : Prop := ∀ c, (L c).Balanced bound

/-- One move at one envelope. -/
def move (L : Ledger ι) (c : ι) (m : Envelope.Move) : Ledger ι := Function.update L c (m.apply (L c))

@[simp] theorem move_self (L : Ledger ι) (c : ι) (m : Envelope.Move) :
    L.move c m c = m.apply (L c) := Function.update_self c _ L

theorem move_of_ne (L : Ledger ι) {c d : ι} (h : d ≠ c) (m : Envelope.Move) : L.move c m d = L d :=
  Function.update_of_ne h _ L

/-- A ledger that changed at one envelope only, by a move. -/
theorem eq_move {L L' : Ledger ι} {c : ι} {m : Envelope.Move} (hself : L' c = m.apply (L c))
    (hother : ∀ d, d ≠ c → L' d = L d) : L' = L.move c m := by
  funext d
  by_cases hd : d = c
  · subst hd
    rw [move_self, hself]
  · rw [move_of_ne L hd, hother d hd]

theorem Balanced.move {bound : ℕ} {L : Ledger ι} (h : L.Balanced bound) {c : ι} {m : Envelope.Move}
    (hm : m.Enabled bound (L c)) : (L.move c m).Balanced bound := by
  intro d
  by_cases hd : d = c
  · subst hd
    rw [move_self]
    exact (h d).apply hm
  · rw [move_of_ne L hd]
    exact h d

/-- Opening a fresh envelope. -/
theorem Balanced.insert {bound : ℕ} {L : Ledger ι} (h : L.Balanced bound) (hbound : 0 < bound)
    (c : ι) (limit : ℕ) : Balanced bound (Function.update L c (Envelope.fresh limit)) := by
  intro d
  by_cases hd : d = c
  · subst hd
    rw [Function.update_self]
    exact Envelope.balanced_fresh hbound limit
  · rw [Function.update_of_ne hd]
    exact h d

end Ledger

end FrankenSim.Library
