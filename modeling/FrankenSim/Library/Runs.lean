import Mathlib.Data.List.Basic
import Mathlib.Logic.Relation
import Mathlib.Order.Defs.PartialOrder

/-!
# Finite runs of a labelled step relation

A run records the labels it took, so a statement may speak about the history
of a state as well as about the state. Invariants are proved once for every
run: a predicate on states, a predicate on states together with their history,
or a relation that every step keeps between its two ends.
-/
namespace FrankenSim.Library

variable {σ α : Type*}

/-- `Run step s as t`: the labels `as`, taken in order, lead from `s` to `t`. -/
inductive Run (step : σ → α → σ → Prop) (s : σ) : List α → σ → Prop
  | nil : Run step s [] s
  | snoc {as t a u} : Run step s as t → step t a u → Run step s (as ++ [a]) u

/-- A state is reachable when some run ends in it. -/
def Reachable (step : σ → α → σ → Prop) (s t : σ) : Prop :=
  ∃ as, Run step s as t

/-- A step relation cut down to the steps that meet a condition on the state
before the step and its label. -/
def Restrict (step : σ → α → σ → Prop) (allowed : σ → α → Prop) : σ → α → σ → Prop :=
  fun s a t => allowed s a ∧ step s a t

/-- The step relation of a partial transition function. -/
def StepOf (f : σ → α → Option σ) : σ → α → σ → Prop :=
  fun s a t => f s a = some t

variable {step : σ → α → σ → Prop} {s t u : σ} {as bs : List α}

theorem Run.single {a : α} (h : step s a t) : Run step s [a] t :=
  Run.snoc (.nil : Run step s [] s) h

theorem Run.append (h : Run step s as t) (h' : Run step t bs u) : Run step s (as ++ bs) u := by
  induction h' with
  | nil => simpa using h
  | snoc _ hstep ih =>
    rw [← List.append_assoc]
    exact ih.snoc hstep

theorem Run.mono {step' : σ → α → σ → Prop} (hsub : ∀ s a t, step s a t → step' s a t)
    (h : Run step s as t) : Run step' s as t := by
  induction h with
  | nil => exact .nil
  | snoc _ hstep ih => exact ih.snoc (hsub _ _ _ hstep)

/-- A predicate on states and histories that the start satisfies and every
step extends holds at the end of every run. -/
theorem Run.historyInvariant {P : List α → σ → Prop} (h0 : P [] s)
    (hstep : ∀ as t a u, Run step s as t → P as t → step t a u → P (as ++ [a]) u)
    (h : Run step s as t) : P as t := by
  induction h with
  | nil => exact h0
  | snoc hrun ht ih => exact hstep _ _ _ _ hrun ih ht

theorem Run.invariant {P : σ → Prop} (h0 : P s)
    (hstep : ∀ t a u, P t → step t a u → P u) (h : Run step s as t) : P t :=
  h.historyInvariant (P := fun _ => P) h0 fun _ t a u _ hP ht => hstep t a u hP ht

/-- A reflexive and transitive relation that every step respects relates the
two ends of a run, given an invariant that the steps may use. -/
theorem Run.relates {P : σ → Prop} {R : σ → σ → Prop} (hP0 : P s)
    (hP : ∀ t a u, P t → step t a u → P u) (hrefl : R s s)
    (htrans : ∀ t u v, R t u → R u v → R t v)
    (hstep : ∀ t a u, P t → step t a u → R t u) (h : Run step s as t) : R s t := by
  have hboth : P t ∧ R s t := by
    induction h with
    | nil => exact ⟨hP0, hrefl⟩
    | snoc _ ht ih => exact ⟨hP _ _ _ ih.1 ht, htrans _ _ _ ih.2 (hstep _ _ _ ih.1 ht)⟩
  exact hboth.2

theorem Run.forall_label {p : α → Prop} (hstep : ∀ t a u, step t a u → p a)
    (h : Run step s as t) : ∀ a ∈ as, p a := by
  induction h with
  | nil => exact fun _ ha => nomatch ha
  | snoc hrun ht ih =>
    intro a ha
    rcases List.mem_append.1 ha with hmem | hlast
    · exact ih a hmem
    · obtain rfl := List.mem_singleton.1 hlast
      exact hstep _ _ _ ht

/-- Where each productive step lowers a measure and no other step raises it, the measure bounds
the number of productive steps. -/
theorem Run.countP_add_le {P : σ → Prop} {μ : σ → ℕ} {p : α → Bool} (hP0 : P s)
    (hP : ∀ t a u, P t → step t a u → P u)
    (hstep : ∀ t a u, P t → step t a u → (if p a then 1 else 0) + μ u ≤ μ t)
    (h : Run step s as t) : as.countP p + μ t ≤ μ s := by
  have hboth : P t ∧ as.countP p + μ t ≤ μ s := by
    induction h with
    | nil => exact ⟨hP0, by simp⟩
    | snoc hrun ht ih =>
      refine ⟨hP _ _ _ ih.1 ht, ?_⟩
      have hle := hstep _ _ _ ih.1 ht
      rw [List.countP_append, List.countP_singleton]
      omega
  exact hboth.2

/-- Where every state short of the goal has a step that lowers a measure, the goal is
reachable. -/
theorem Reachable.of_progress {P goal : σ → Prop} {μ : σ → ℕ}
    (hprogress : ∀ t, P t → ¬goal t → ∃ a u, step t a u ∧ P u ∧ μ u < μ t) (hs : P s) :
    ∃ t, Reachable step s t ∧ P t ∧ goal t := by
  induction hμ : μ s using Nat.strongRecOn generalizing s with
  | _ m ih =>
    subst hμ
    by_cases hgoal : goal s
    · exact ⟨s, ⟨[], .nil⟩, hs, hgoal⟩
    · obtain ⟨a, u, hstep, hu, hlt⟩ := hprogress s hs hgoal
      obtain ⟨t, ⟨as, hrun⟩, ht, hdone⟩ := ih (μ u) hlt hu rfl
      exact ⟨t, ⟨[a] ++ as, (Run.single hstep).append hrun⟩, ht, hdone⟩

theorem Reachable.refl (s : σ) : Reachable step s s := ⟨[], .nil⟩

theorem Reachable.tail {a : α} (h : Reachable step s t) (ha : step t a u) : Reachable step s u := by
  obtain ⟨as, has⟩ := h
  exact ⟨_, has.snoc ha⟩

theorem Reachable.trans (h : Reachable step s t) (h' : Reachable step t u) :
    Reachable step s u := by
  obtain ⟨as, has⟩ := h
  obtain ⟨bs, hbs⟩ := h'
  exact ⟨_, has.append hbs⟩

theorem Reachable.invariant {P : σ → Prop} (h0 : P s)
    (hstep : ∀ t a u, P t → step t a u → P u) (h : Reachable step s t) : P t := by
  obtain ⟨as, has⟩ := h
  exact has.invariant h0 hstep

/-- Running a partial transition function over a list of labels. -/
def runList (f : σ → α → Option σ) : σ → List α → Option σ
  | s, [] => some s
  | s, a :: as => (f s a).bind fun t => runList f t as

theorem runList_append {f : σ → α → Option σ} (as bs : List α) (s : σ) :
    runList f s (as ++ bs) = (runList f s as).bind fun t => runList f t bs := by
  induction as generalizing s with
  | nil => rfl
  | cons a as ih => simp [runList, ih, Option.bind_assoc]

theorem run_of_runList {f : σ → α → Option σ} :
    ∀ {as : List α} {s t : σ}, runList f s as = some t → Run (StepOf f) s as t
  | [], s, t, h => by
    obtain rfl : s = t := by simpa [runList] using h
    exact .nil
  | a :: as, s, t, h => by
    obtain ⟨u, hu, ht⟩ := Option.bind_eq_some_iff.1 h
    exact (Run.single hu).append (run_of_runList ht)

end FrankenSim.Library
