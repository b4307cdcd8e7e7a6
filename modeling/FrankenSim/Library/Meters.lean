import Mathlib.Algebra.Order.Monoid.Canonical.Defs
import Mathlib.Algebra.Order.Monoid.Prod
import Mathlib.Algebra.Order.Group.Nat
import Mathlib.Data.List.Basic
import Mathlib.Tactic.Linarith

/-!
# Metered computations

A computation that may end early leaves its state behind. A grade bounds how far the state
has moved; the grades of consecutive steps add up, whether the last step ends or not.
-/
namespace FrankenSim.Library

/-- A computation that returns a value or ends early, with the state it leaves. -/
def Metered (σ ε α : Type) : Type := σ → Except ε α × σ

namespace Metered

variable {σ τ ε ε' α β : Type}

protected def bind (m : Metered σ ε α) (f : α → Metered σ ε β) : Metered σ ε β := fun s =>
  match m s with
  | (.ok a, s') => f a s'
  | (.error e, s') => (.error e, s')

instance : Monad (Metered σ ε) where
  pure a := fun s => (.ok a, s)
  bind := Metered.bind

/-- A result that leaves the state alone. -/
def ofExcept (r : Except ε α) : Metered σ ε α := fun s => (r, s)

def modify (f : σ → σ) : Metered σ ε Unit := fun s => (.ok (), f s)

/-- A computation on a part of a larger state, with its early ends renamed. -/
def zoom (get : τ → σ) (set : σ → τ → τ) (rename : ε → ε') (m : Metered σ ε α) :
    Metered τ ε' α := fun t =>
  match m (get t) with
  | (.ok a, s) => (.ok a, set s t)
  | (.error e, s) => (.error (rename e), set s t)

/-- The value, if there is one, does not depend on the state. -/
def Determined (m : Metered σ ε α) : Prop :=
  ∀ s s' a a', (m s).1 = .ok a → (m s').1 = .ok a' → a = a'

theorem bind_eq_ok {m : Metered σ ε α} {f : α → Metered σ ε β} {s : σ} {b : β}
    (h : ((m >>= f) s).1 = .ok b) : ∃ a, (m s).1 = .ok a ∧ (f a (m s).2).1 = .ok b := by
  change (Metered.bind m f s).1 = .ok b at h
  unfold Metered.bind at h
  split at h
  case h_1 a s' hm => exact ⟨a, by rw [hm], by rw [hm]; exact h⟩
  case h_2 => cases h

namespace Determined

variable {m : Metered σ ε α} {f : α → Metered σ ε β}

theorem pure (a : α) : Determined (Pure.pure a : Metered σ ε α) := by
  rintro s s' b b' ⟨⟩ ⟨⟩
  rfl

theorem ofExcept (r : Except ε α) : Determined (Metered.ofExcept r : Metered σ ε α) := by
  intro s s' b b' h h'
  exact Except.ok.inj (h.symm.trans h')

theorem unit (m : Metered σ ε Unit) : Determined m := fun _ _ _ _ _ _ => rfl

theorem bind (hm : Determined m) (hf : ∀ a, Determined (f a)) : Determined (m >>= f) := by
  intro s s' b b' h h'
  obtain ⟨a, ha, hb⟩ := bind_eq_ok h
  obtain ⟨a', ha', hb'⟩ := bind_eq_ok h'
  obtain rfl := hm s s' a a' ha ha'
  exact hf a _ _ b b' hb hb'

theorem foldlM {f : β → α → Metered σ ε β} {l : List α} (hf : ∀ b a, Determined (f b a)) :
    ∀ b, Determined (l.foldlM f b) := by
  induction l with
  | nil => exact fun b => pure b
  | cons a l ih =>
    intro b
    rw [List.foldlM_cons]
    exact (hf b a).bind ih

theorem ite {p : Prop} [Decidable p] {m m' : Metered σ ε α} (hm : Determined m)
    (hm' : Determined m') : Determined (if p then m else m') := by
  split
  case isTrue => exact hm
  case isFalse => exact hm'

end Determined

end Metered

/-- A bound on how far a state has moved, which adds up over consecutive moves. -/
structure Grade (κ σ : Type) [AddCommMonoid κ] [PartialOrder κ] where
  moved : κ → σ → σ → Prop
  refl : ∀ s, moved 0 s s
  mono : ∀ {k k' s s'}, k ≤ k' → moved k s s' → moved k' s s'
  trans : ∀ {k k' s s' s''}, moved k s s' → moved k' s' s'' → moved (k + k') s s''

namespace Grade

/-- Units spent against a limit that stays; nobody is stopped while the limit covers the grade. -/
def meter {σ : Type} (spent limit : σ → ℕ) (stopped : σ → Prop) : Grade ℕ σ where
  moved k s s' := spent s' ≤ spent s + k ∧ limit s' = limit s ∧
    (spent s + k ≤ limit s → ¬ stopped s → ¬ stopped s')
  refl s := ⟨le_rfl, rfl, fun _ h => h⟩
  mono hk h := ⟨h.1.trans (by omega), h.2.1, fun hle hs => h.2.2 (by omega) hs⟩
  trans := by
    rintro k k' s s' s'' ⟨hspent, hlimit, hgo⟩ ⟨hspent', hlimit', hgo'⟩
    refine ⟨by omega, hlimit'.trans hlimit, fun hle hs => ?_⟩
    exact hgo' (by omega) (hgo (by omega) hs)

variable {κ κ' σ τ ε ε' α β : Type} [AddCommMonoid κ] [PartialOrder κ]
variable [AddCommMonoid κ'] [PartialOrder κ']

/-- From every state the computation stays within the grade; its values and its early ends are
of the given kinds. -/
def Bounds (G : Grade κ σ) (k : κ) (Q : α → Prop) (E : ε → Prop) (m : Metered σ ε α) : Prop :=
  ∀ s, G.moved k s (m s).2 ∧ (∀ a, (m s).1 = .ok a → Q a) ∧ ∀ e, (m s).1 = .error e → E e

namespace Bounds

variable {G : Grade κ σ} {k k' : κ} {Q Q' : α → Prop} {R : β → Prop} {E : ε → Prop}
variable {m m' : Metered σ ε α} {f : α → Metered σ ε β}

theorem mono (h : G.Bounds k Q E m) (hk : k ≤ k') : G.Bounds k' Q E m :=
  fun s => ⟨G.mono hk (h s).1, (h s).2⟩

theorem imp (h : G.Bounds k Q E m) (hQ : ∀ a, Q a → Q' a) : G.Bounds k Q' E m :=
  fun s => ⟨(h s).1, fun a ha => hQ a ((h s).2.1 a ha), (h s).2.2⟩

/-- What a computation returns it returns from some state. -/
theorem returned (h : G.Bounds k Q E m) :
    G.Bounds k (fun a => Q a ∧ ∃ s, (m s).1 = .ok a) E m :=
  fun s => ⟨(h s).1, fun a ha => ⟨(h s).2.1 a ha, s, ha⟩, (h s).2.2⟩

theorem ite {p : Prop} [Decidable p] (hm : p → G.Bounds k Q E m) (hm' : ¬ p → G.Bounds k Q E m') :
    G.Bounds k Q E (if p then m else m') := by
  split
  case isTrue hp => exact hm hp
  case isFalse hp => exact hm' hp

/-- What holds of a part of the state holds of the whole. -/
theorem zoom {G' : Grade κ' τ} {k' : κ'} {get : τ → σ} {set : σ → τ → τ} {rename : ε → ε'}
    {E' : ε' → Prop} (h : G.Bounds k Q E m)
    (hmoved : ∀ t s, G.moved k (get t) s → G'.moved k' t (set s t))
    (hrename : ∀ e, E e → E' (rename e)) :
    G'.Bounds k' Q E' (Metered.zoom get set rename m) := by
  intro t
  obtain ⟨hmove, hvalue, herror⟩ := h (get t)
  unfold Metered.zoom
  rcases hm : m (get t) with ⟨e | a, s⟩
  · rw [hm] at hmove herror
    refine ⟨hmoved t s hmove, ?_, ?_⟩
    · rintro a ⟨⟩
    · rintro e' ⟨⟩
      exact hrename e (herror e rfl)
  · rw [hm] at hmove hvalue
    refine ⟨hmoved t s hmove, ?_, ?_⟩
    · rintro a' ⟨⟩
      exact hvalue a rfl
    · rintro e' ⟨⟩

section Sums

variable [CanonicallyOrderedAdd κ]

theorem ofExcept {r : Except ε α} (hok : ∀ a, r = .ok a → Q a)
    (herror : ∀ e, r = .error e → E e) : G.Bounds k Q E (Metered.ofExcept r) :=
  fun s => ⟨G.mono zero_le (G.refl s), hok, herror⟩

theorem pure {a : α} (h : Q a) : G.Bounds k Q E (Pure.pure a : Metered σ ε α) := by
  apply ofExcept (r := .ok a)
  · rintro b ⟨⟩
    exact h
  · rintro e ⟨⟩

/-- The grades of two computations in a row add up. -/
theorem bind (hm : G.Bounds k Q E m) (hf : ∀ a, Q a → G.Bounds k' R E (f a)) :
    G.Bounds (k + k') R E (m >>= f) := by
  intro s
  obtain ⟨hmoved, hvalue, herror⟩ := hm s
  change G.moved (k + k') s (Metered.bind m f s).2 ∧ (∀ b, (Metered.bind m f s).1 = .ok b → R b) ∧
    ∀ e, (Metered.bind m f s).1 = .error e → E e
  unfold Metered.bind
  rcases hms : m s with ⟨e | a, s'⟩
  · rw [hms] at hmoved herror
    refine ⟨G.mono le_self_add hmoved, ?_, ?_⟩
    · rintro b ⟨⟩
    · rintro e' ⟨⟩
      exact herror e rfl
  · rw [hms] at hmoved hvalue
    obtain ⟨hmoved', hrest⟩ := hf a (hvalue a rfl) s'
    exact ⟨G.trans hmoved hmoved', hrest⟩

/-- A step that costs nothing before a computation. -/
theorem after (hm : G.Bounds 0 Q E m) (hf : ∀ a, Q a → G.Bounds k R E (f a)) :
    G.Bounds k R E (m >>= f) := by
  have h := bind hm hf
  rwa [zero_add] at h

/-- A step that costs nothing after a computation. -/
theorem before (hm : G.Bounds k Q E m) (hf : ∀ a, Q a → G.Bounds 0 R E (f a)) :
    G.Bounds k R E (m >>= f) := by
  have h := bind hm hf
  rwa [add_zero] at h

/-- A loop costs what its rounds cost together and keeps an invariant. -/
theorem foldlM {f : β → α → Metered σ ε β} {l : List α}
    (hf : ∀ b, ∀ a ∈ l, R b → G.Bounds k R E (f b a)) :
    ∀ b, R b → G.Bounds (l.length • k) R E (l.foldlM f b) := by
  induction l with
  | nil => exact fun b hb => pure hb
  | cons a l ih =>
    intro b hb
    rw [List.foldlM_cons, List.length_cons, succ_nsmul']
    apply bind (hf b a List.mem_cons_self hb)
    exact ih fun b a ha => hf b a (List.mem_cons_of_mem _ ha)

theorem foldlM_free {f : β → α → Metered σ ε β} {l : List α}
    (hf : ∀ b, ∀ a ∈ l, R b → G.Bounds 0 R E (f b a)) {b : β} (hb : R b) :
    G.Bounds 0 R E (l.foldlM f b) := by
  have h := foldlM hf b hb
  rwa [nsmul_zero] at h

/-- A counting loop, whose invariant names the round. -/
theorem range_foldlM {I : ℕ → β → Prop} {f : β → ℕ → Metered σ ε β} {n : ℕ} {b : β} (h : I 0 b)
    (hf : ∀ i < n, ∀ b, I i b → G.Bounds k (I (i + 1)) E (f b i)) :
    G.Bounds (n • k) (I n) E ((List.range n).foldlM f b) := by
  have hrange (m : ℕ) : ∀ start b, start + m ≤ n → I start b →
      G.Bounds (m • k) (I (start + m)) E ((List.range' start m).foldlM f b) := by
    induction m with
    | zero =>
      intro start b _ hb
      exact pure hb
    | succ m ih =>
      intro start b hle hb
      rw [List.range'_succ, List.foldlM_cons, succ_nsmul', Nat.add_succ, ← Nat.succ_add]
      apply bind (hf start (by omega) b hb)
      intro b' hb'
      exact ih (start + 1) b' (by omega) hb'
  have hall := hrange n 0 b (by omega) h
  rwa [Nat.zero_add, ← List.range_eq_range'] at hall

theorem range_foldlM_free {I : ℕ → β → Prop} {f : β → ℕ → Metered σ ε β} {n : ℕ} {b : β}
    (h : I 0 b) (hf : ∀ i < n, ∀ b, I i b → G.Bounds 0 (I (i + 1)) E (f b i)) :
    G.Bounds 0 (I n) E ((List.range n).foldlM f b) := by
  have hloop := range_foldlM h hf
  rwa [nsmul_zero] at hloop

end Sums

end Bounds

end Grade

end FrankenSim.Library
