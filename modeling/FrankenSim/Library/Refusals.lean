import Mathlib.Data.List.Basic
import Mathlib.Tactic.Linarith

/-!
# Checks that answer or refuse

A checker returns a value or refuses. A refusal either has a cause of an admitted
kind, such as an exhausted budget, or it refutes the property that is checked.
-/
namespace FrankenSim.Library

variable {ε α β σ : Type} {cause refutes : ε → Prop} {P P' : Prop} {Q : α → Prop} {R : β → Prop}

/-- A computation returns a value of the given kind or refuses for an admitted cause. -/
def Within (cause : ε → Prop) (Q : α → Prop) : Except ε α → Prop
  | .ok a => Q a
  | .error e => cause e

namespace Within

theorem ok {a : α} (h : Q a) : Within cause Q (.ok a : Except ε α) := h

theorem error {e : ε} (h : cause e) : Within cause Q (.error e : Except ε α) := h

theorem mono {cause' : ε → Prop} {Q' : α → Prop} {x : Except ε α} (hx : Within cause Q x)
    (hcause : ∀ e, cause e → cause' e) (hQ : ∀ a, Q a → Q' a) : Within cause' Q' x := by
  cases x with
  | error e => exact hcause e hx
  | ok a => exact hQ a hx

theorem imp {Q' : α → Prop} {x : Except ε α} (hx : Within cause Q x) (hQ : ∀ a, Q a → Q' a) :
    Within cause Q' x :=
  hx.mono (fun _ h => h) hQ

theorem bind {x : Except ε α} {f : α → Except ε β} (hx : Within cause Q x)
    (hf : ∀ a, Q a → Within cause R (f a)) : Within cause R (x >>= f) := by
  cases x with
  | error e => exact hx
  | ok a => exact hf a hx

/-- A loop over an initial range keeps its invariant. -/
theorem range_foldlM {n : ℕ} {I : ℕ → σ → Prop} {f : σ → ℕ → Except ε σ} {s : σ} (h : I 0 s)
    (step : ∀ i < n, ∀ s, I i s → Within cause (I (i + 1)) (f s i)) :
    Within cause (I n) ((List.range n).foldlM f s) := by
  induction n with
  | zero => exact h
  | succ n ih =>
    rw [List.range_succ, List.foldlM_append]
    apply bind (ih fun i hi => step i (by omega))
    intro s' hs'
    apply bind (step n (by omega) s' hs')
    intro s'' hs''
    exact ok hs''

theorem mapM_eq {l : List σ} {f : σ → Except ε α} {g : σ → α}
    (h : ∀ a ∈ l, Within cause (· = g a) (f a)) : Within cause (· = l.map g) (l.mapM f) := by
  induction l with
  | nil => exact Within.ok rfl
  | cons a l ih =>
    rw [List.mapM_cons]
    apply (h a List.mem_cons_self).bind
    rintro b rfl
    apply (ih fun a ha => h a (List.mem_cons_of_mem _ ha)).bind
    rintro bs rfl
    exact Within.ok rfl

theorem of_ok {x : Except ε α} {a : α} (hx : Within cause Q x) (h : x = .ok a) : Q a := by
  rwa [h] at hx

/-- The value of a successful computation is what it returned. -/
theorem returned {x : Except ε α} (hx : Within cause Q x) :
    Within cause (fun a => x = .ok a ∧ Q a) x := by
  cases x with
  | error e => exact hx
  | ok a => exact ⟨rfl, hx⟩

/-- Without an admitted cause the computation succeeds. -/
theorem exists_ok {x : Except ε α} (hx : Within cause Q x) (hnone : ∀ e, ¬ cause e) :
    ∃ a, x = .ok a ∧ Q a := by
  cases x with
  | error e => exact absurd hx (hnone e)
  | ok a => exact ⟨a, rfl, hx⟩

end Within

/-- Success proves the property; a refusal has an admitted cause or refutes it. -/
def Settles (cause refutes : ε → Prop) (P : Prop) (Q : α → Prop) (x : Except ε α) : Prop :=
  Within (fun e => cause e ∨ refutes e ∧ ¬ P) (fun a => P ∧ Q a) x

namespace Settles

theorem ok {a : α} (hP : P) (h : Q a) : Settles cause refutes P Q (.ok a : Except ε α) := ⟨hP, h⟩

theorem refuted {e : ε} (h : refutes e) (hP : ¬ P) :
    Settles cause refutes P Q (.error e : Except ε α) :=
  Or.inr ⟨h, hP⟩

theorem ofWithin {x : Except ε α} (hP : P) (hx : Within cause Q x) :
    Settles cause refutes P Q x :=
  hx.mono (fun _ => Or.inl) fun _ => And.intro hP

theorem congr {x : Except ε α} (hx : Settles cause refutes P Q x) (h : P ↔ P') :
    Settles cause refutes P' Q x := by
  rwa [← propext h]

theorem imp {Q' : α → Prop} {x : Except ε α} (hx : Settles cause refutes P Q x)
    (h : ∀ a, P → Q a → Q' a) : Settles cause refutes P Q' x :=
  Within.imp hx fun a ha => ⟨ha.1, h a ha.1 ha.2⟩

/-- Two checks in a row settle both properties. -/
theorem bind {x : Except ε α} {f : α → Except ε β} (hx : Settles cause refutes P Q x)
    (hf : ∀ a, P → Q a → Settles cause refutes P' R (f a)) :
    Settles cause refutes (P ∧ P') R (x >>= f) := by
  cases x with
  | error e =>
    apply Or.imp id _ hx
    rintro ⟨hrefutes, hP⟩
    exact ⟨hrefutes, fun hboth => hP hboth.1⟩
  | ok a =>
    apply (hf a hx.1 hx.2).mono
    · intro e he
      apply Or.imp id _ he
      rintro ⟨hrefutes, hP⟩
      exact ⟨hrefutes, fun hboth => hP hboth.2⟩
    · intro b hb
      exact ⟨⟨hx.1, hb.1⟩, hb.2⟩

/-- A step that checks nothing only passes its value on. -/
theorem after {x : Except ε α} {f : α → Except ε β} (hx : Within cause Q x)
    (hf : ∀ a, Q a → Settles cause refutes P R (f a)) : Settles cause refutes P R (x >>= f) := by
  cases x with
  | error e => exact Or.inl hx
  | ok a => exact hf a hx

/-- A value computed from a settled one. -/
theorem bindValue {x : Except ε α} {g : α → β} (hx : Settles cause refutes P Q x)
    (hg : ∀ a, P → Q a → R (g a)) :
    Settles cause refutes P R (x >>= fun a => .ok (g a)) := by
  cases x with
  | error e => exact hx
  | ok a => exact ⟨hx.1, hg a hx.1 hx.2⟩

/-- A check before a computation that checks nothing. -/
theorem bindCheck {x : Except ε α} {f : α → Except ε β} (hx : Settles cause refutes P Q x)
    (h : P ↔ P') (hf : ∀ a, P → Q a → Within cause R (f a)) :
    Settles cause refutes P' R (x >>= f) := by
  apply congr (bind hx fun a hP hQ => ofWithin (P := P) hP (hf a hP hQ))
  rw [and_self, h]

/-- A loop that checks one property at each index settles all of them. -/
theorem range_foldlM {n : ℕ} {C : ℕ → Prop} {I : ℕ → σ → Prop} {f : σ → ℕ → Except ε σ} {s : σ}
    (h : I 0 s) (step : ∀ i < n, ∀ s, (∀ j < i, C j) → I i s →
      Settles cause refutes (C i) (I (i + 1)) (f s i)) :
    Settles cause refutes (∀ i < n, C i) (I n) ((List.range n).foldlM f s) := by
  induction n with
  | zero => exact ok (fun i hi => absurd hi (Nat.not_lt_zero i)) h
  | succ n ih =>
    rw [List.range_succ, List.foldlM_append]
    have hlast : ((∀ i < n, C i) ∧ C n) ↔ ∀ i < n + 1, C i := by
      constructor
      · intro hC i hi
        rcases Nat.lt_succ_iff_lt_or_eq.1 hi with hi | rfl
        · exact hC.1 i hi
        · exact hC.2
      · intro hC
        exact ⟨fun i hi => hC i (by omega), hC n (by omega)⟩
    apply congr _ hlast
    apply bind (ih fun i hi => step i (by omega))
    intro s' hC hs'
    rw [List.foldlM_cons]
    have hstep := step n (by omega) s' hC hs'
    cases hf : f s' n with
    | error e =>
      rw [hf] at hstep
      exact hstep
    | ok s'' =>
      rw [hf] at hstep
      exact hstep

end Settles

/-- A loop over rows and columns. -/
def forGrid (rows cols : ℕ) (f : σ → ℕ → ℕ → Except ε σ) (s : σ) : Except ε σ :=
  (List.range rows).foldlM (fun s row => (List.range cols).foldlM (fun s col => f s row col) s) s

/-- A grid loop that checks one property at each place settles all of them. -/
theorem forGrid_settles {rows cols : ℕ} {C : ℕ → ℕ → Prop} {I : ℕ → σ → Prop}
    {f : σ → ℕ → ℕ → Except ε σ} {s : σ} (h : I 0 s)
    (step : ∀ row < rows, ∀ col < cols, ∀ s, I (row * cols + col) s →
      Settles cause refutes (C row col) (I (row * cols + col + 1)) (f s row col)) :
    Settles cause refutes (∀ row < rows, ∀ col < cols, C row col) (I (rows * cols))
      (forGrid rows cols f s) := by
  have hzero : I (0 * cols) s := by rwa [Nat.zero_mul]
  apply Settles.range_foldlM (I := fun row => I (row * cols)) hzero
  intro row hrow s' _ hs'
  rw [Nat.succ_mul]
  exact Settles.range_foldlM (I := fun col => I (row * cols + col)) hs'
    fun col hcol s'' _ hs'' => step row hrow col hcol s'' hs''

/-- A grid loop keeps its invariant from each place to the next. -/
theorem forGrid_within {rows cols : ℕ} {I : ℕ → σ → Prop} {f : σ → ℕ → ℕ → Except ε σ} {s : σ}
    (h : I 0 s) (step : ∀ row < rows, ∀ col < cols, ∀ s, I (row * cols + col) s →
      Within cause (I (row * cols + col + 1)) (f s row col)) :
    Within cause (I (rows * cols)) (forGrid rows cols f s) := by
  have hzero : I (0 * cols) s := by rwa [Nat.zero_mul]
  apply Within.range_foldlM (I := fun row => I (row * cols)) hzero
  intro row hrow s' hs'
  rw [Nat.succ_mul]
  exact Within.range_foldlM (I := fun col => I (row * cols + col)) hs'
    fun col hcol s'' hs'' => step row hrow col hcol s'' hs''

theorem bind_eq_ok {ε : Type*} {α β : Type u} {x : Except ε α} {f : α → Except ε β} {b : β}
    (h : x >>= f = .ok b) : ∃ a, x = .ok a ∧ f a = .ok b := by
  cases x with
  | error e => cases h
  | ok a => exact ⟨a, rfl, h⟩

theorem bind_eq_ok_iff {ε : Type*} {α β : Type u} {x : Except ε α} {f : α → Except ε β} {b : β} :
    x >>= f = .ok b ↔ ∃ a, x = .ok a ∧ f a = .ok b := by
  constructor
  · exact bind_eq_ok
  · rintro ⟨a, rfl, h⟩
    exact h

/-- Refuse when a condition holds. -/
def refuseWhen {ε : Type*} (condition : Prop) [Decidable condition] (error : ε) : Except ε Unit :=
  if condition then .error error else .ok ()

theorem refuseWhen_ok {ε : Type*} {condition : Prop} [Decidable condition] {error : ε} {u : Unit} :
    refuseWhen condition error = .ok u ↔ ¬ condition := by
  unfold refuseWhen
  split
  case isTrue h => simp [h]
  case isFalse h => simp [h]

theorem ite_error_eq_ok {ε α : Type*} {p : Prop} [Decidable p] {error : ε} {x : Except ε α} {a : α} :
    (if p then .error error else x) = .ok a ↔ ¬ p ∧ x = .ok a := by
  split
  case isTrue h => simp [h]
  case isFalse h => simp [h]

/-- A loop of checks passes exactly when every check passes. -/
theorem forM_ok {α ε : Type*} {f : α → Except ε PUnit} {l : List α} :
    l.forM f = .ok ⟨⟩ ↔ ∀ a ∈ l, f a = .ok ⟨⟩ := by
  induction l with
  | nil => simp [pure, Except.pure]
  | cons a l ih =>
    rw [List.forall_mem_cons]
    change (f a >>= fun _ => l.forM f) = .ok ⟨⟩ ↔ _
    cases hf : f a with
    | error error => simp [bind, Except.bind]
    | ok u => simpa [bind, Except.bind] using ih

theorem mapM_ok {ε : Type*} {α β : Type u} {f : α → Except ε β} {g : α → β} {l : List α}
    (h : ∀ a ∈ l, f a = .ok (g a)) : l.mapM f = .ok (l.map g) := by
  induction l with
  | nil => rfl
  | cons a l ih =>
    rw [List.forall_mem_cons] at h
    rw [List.mapM_cons, h.1, ih h.2]
    rfl

/-- What a loop of checks refuses one of the checks refused. -/
theorem forM_error {α ε : Type*} {f : α → Except ε PUnit} {l : List α} {e : ε}
    (h : l.forM f = .error e) : ∃ a ∈ l, f a = .error e := by
  induction l with
  | nil => cases h
  | cons a l ih =>
    change (f a >>= fun _ => l.forM f) = .error e at h
    cases hf : f a with
    | error e' =>
      rw [hf] at h
      exact ⟨a, List.mem_cons_self, hf.trans h⟩
    | ok u =>
      rw [hf] at h
      obtain ⟨b, hb, heq⟩ := ih h
      exact ⟨b, List.mem_cons_of_mem a hb, heq⟩

end FrankenSim.Library
