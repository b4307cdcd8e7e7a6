import FrankenSim.Library.Refusals

/-!
# Computations that poll a checkpoint

A checkpoint sees the phases polled so far and lets the computation go on or cancels
it. What holds of every result holds for every checkpoint.
-/
namespace FrankenSim.Library

/-- A computation that refuses or returns, over the phases polled so far. -/
abbrev Polled (ε α : Type) := StateT (List String) (Except ε) α

/-- The answer to a phase after the phases polled before. -/
abbrev Checkpoint := List String → String → Bool

namespace Polled

variable {ε α β σ : Type} {cause : ε → Prop} {Q : α → Prop} {R : β → Prop}

/-- Ask the checkpoint, and refuse when it cancels. -/
def poll (checkpoint : Checkpoint) (phase : String) (cancelled : ε) : Polled ε Unit :=
  fun seen =>
    if checkpoint seen phase then .ok ((), seen ++ [phase]) else .error cancelled

/-- A computation that polls nothing. -/
def unpolled (x : Except ε α) : Polled ε α := fun seen => x.map fun a => (a, seen)

/-- The value of an option, or a refusal. -/
def orRefuse (o : Option α) (error : ε) : Polled ε α :=
  unpolled (match o with
    | some a => .ok a
    | none => .error error)

def refuseIf (condition : Prop) [Decidable condition] (error : ε) : Polled ε Unit :=
  unpolled (refuseWhen condition error)

/-- Whatever was polled before, the computation returns a value of the given kind or
refuses for an admitted cause. -/
def Ensures (cause : ε → Prop) (Q : α → Prop) (x : Polled ε α) : Prop :=
  ∀ seen, Within cause (fun r => Q r.1) (x seen)

namespace Ensures

theorem pure {a : α} (h : Q a) : Ensures cause Q (Pure.pure a : Polled ε α) := fun _ => h

theorem bind {x : Polled ε α} {f : α → Polled ε β} (hx : Ensures cause Q x)
    (hf : ∀ a, Q a → Ensures cause R (f a)) : Ensures cause R (x >>= f) := by
  intro seen
  apply Within.bind (hx seen)
  intro r hr
  exact hf r.1 hr r.2

theorem imp {Q' : α → Prop} {x : Polled ε α} (hx : Ensures cause Q x) (h : ∀ a, Q a → Q' a) :
    Ensures cause Q' x :=
  fun seen => (hx seen).imp fun r => h r.1

theorem unpolled {x : Except ε α} (hx : Within cause Q x) :
    Ensures cause Q (Polled.unpolled x) := by
  intro seen
  cases x with
  | error e => exact hx
  | ok a => exact hx

/-- A poll refuses only when the checkpoint cancels. -/
theorem poll_of {checkpoint : Checkpoint} {phase : String} {cancelled : ε}
    (h : ∀ seen, checkpoint seen phase = false → cause cancelled) :
    Ensures cause (fun _ => True) (Polled.poll checkpoint phase cancelled) := by
  intro seen
  unfold Polled.poll
  split
  case isTrue => trivial
  case isFalse hc => exact h seen (Bool.eq_false_of_not_eq_true hc)

theorem poll {checkpoint : Checkpoint} {phase : String} {cancelled : ε} (h : cause cancelled) :
    Ensures cause (fun _ => True) (Polled.poll checkpoint phase cancelled) :=
  poll_of fun _ _ => h

theorem orRefuse {o : Option α} {error : ε} (h : o = none → cause error) :
    Ensures cause (fun a => o = some a) (Polled.orRefuse o error) := by
  apply Ensures.unpolled
  cases o with
  | none => exact h rfl
  | some a => rfl

theorem refuseIf {condition : Prop} [Decidable condition] {error : ε}
    (h : condition → cause error) :
    Ensures cause (fun _ => ¬ condition) (Polled.refuseIf condition error) := by
  apply Ensures.unpolled
  unfold refuseWhen
  split
  case isTrue hc => exact h hc
  case isFalse hc => exact hc

/-- A loop over a list keeps an invariant of the elements that it has passed. -/
theorem foldlM {l : List α} {I : List α → σ → Prop} {f : σ → α → Polled ε σ} {s : σ} (h : I [] s)
    (step : ∀ passed a later s, passed ++ a :: later = l → I passed s →
      Ensures cause (I (passed ++ [a])) (f s a)) :
    Ensures cause (I l) (l.foldlM f s) := by
  suffices hloop : ∀ later passed s, passed ++ later = l → I passed s →
      Ensures cause (I l) (later.foldlM f s) from hloop l [] s rfl h
  intro later
  induction later with
  | nil =>
    intro passed s hl hI
    rw [List.append_nil] at hl
    exact pure (hl ▸ hI)
  | cons a later ih =>
    intro passed s hl hI
    rw [List.foldlM_cons]
    apply bind (step passed a later s hl hI)
    intro s' hs'
    exact ih (passed ++ [a]) s' (by rw [← hl, List.append_assoc, List.singleton_append]) hs'

/-- A loop of checks, each of which ensures a property of its element. -/
theorem foldlM_forall {l : List α} {P : α → Prop} {f : σ → α → Polled ε σ} {s : σ}
    (step : ∀ a s, Ensures cause (fun _ => P a) (f s a)) :
    Ensures cause (fun _ => ∀ a ∈ l, P a) (l.foldlM f s) := by
  apply foldlM (I := fun passed _ => ∀ a ∈ passed, P a)
  · intro a ha
    cases ha
  · intro passed a later s _ hpassed
    apply (step a s).imp
    intro _ ha b hb
    rcases List.mem_append.1 hb with hb | hb
    · exact hpassed b hb
    · rw [List.mem_singleton.1 hb]
      exact ha

theorem of_ok {x : Polled ε α} {a : α} {seen seen' : List String} (hx : Ensures cause Q x)
    (h : x seen = .ok (a, seen')) : Q a :=
  (hx seen).of_ok h

/-- A computation with no admitted cause returns. -/
theorem exists_ok {x : Polled ε α} (hx : Ensures cause Q x) (hnone : ∀ e, ¬ cause e)
    (seen : List String) : ∃ a last, x seen = .ok (a, last) ∧ Q a := by
  obtain ⟨⟨a, last⟩, hok, hQ⟩ := (hx seen).exists_ok hnone
  exact ⟨a, last, hok, hQ⟩

theorem of_error {x : Polled ε α} {e : ε} {seen : List String} (hx : Ensures cause Q x)
    (h : x seen = .error e) : cause e := by
  have := hx seen
  rwa [h] at this

end Ensures

end Polled

end FrankenSim.Library
