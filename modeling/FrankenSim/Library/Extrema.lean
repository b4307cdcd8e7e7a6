import Mathlib.Order.BoundedOrder.Lattice
import Mathlib.Order.Max
import Mathlib.Tactic

/-!
# Scans for the greatest and the least value
-/
namespace FrankenSim.Library

variable {A K : Type*} [LinearOrder K]

theorem le_foldl_max (l : List K) (a : K) :
    a ≤ l.foldl max a ∧ ∀ x ∈ l, x ≤ l.foldl max a := by
  induction l generalizing a with
  | nil => simp
  | cons b l ih =>
    obtain ⟨hle, hall⟩ := ih (max a b)
    rw [List.foldl_cons, List.forall_mem_cons]
    exact ⟨(le_max_left a b).trans hle, (le_max_right a b).trans hle, hall⟩

theorem foldl_max_mem (l : List K) (a : K) : l.foldl max a = a ∨ l.foldl max a ∈ l := by
  induction l generalizing a with
  | nil => exact Or.inl rfl
  | cons b l ih =>
    rw [List.foldl_cons]
    rcases ih (max a b) with h | h
    · rw [h]
      rcases max_choice a b with hmax | hmax
      · exact Or.inl hmax
      · rw [hmax]
        exact Or.inr List.mem_cons_self
    · exact Or.inr (List.mem_cons_of_mem _ h)

theorem foldl_min_le (l : List K) (a : K) :
    l.foldl min a ≤ a ∧ ∀ x ∈ l, l.foldl min a ≤ x :=
  le_foldl_max (K := Kᵒᵈ) l a

theorem foldl_min_mem (l : List K) (a : K) : l.foldl min a = a ∨ l.foldl min a ∈ l :=
  foldl_max_mem (K := Kᵒᵈ) l a

/-- A scan that skips some entries. -/
theorem foldl_skipping {S : Type*} (p : A → Prop) [DecidablePred p] (f : S → A → S) (l : List A)
    (s : S) : l.foldl (fun s a => if p a then s else f s a) s =
      (l.filter fun a => ¬ p a).foldl f s := by
  induction l generalizing s with
  | nil => rfl
  | cons a l ih =>
    rw [List.foldl_cons, ih]
    by_cases h : p a
    · simp [h]
    · simp [h]

/-- The greatest value of the entries that are not skipped. -/
theorem foldl_max_skipping [OrderBot K] (p : A → Prop) [DecidablePred p] (f : A → K) (l : List A) :
    (∀ a ∈ l, ¬ p a → f a ≤ l.foldl (fun s a => if p a then s else max s (f a)) ⊥) ∧
      (l.foldl (fun s a => if p a then s else max s (f a)) ⊥ = ⊥ ∨ ∃ a ∈ l, ¬ p a ∧
        l.foldl (fun s a => if p a then s else max s (f a)) ⊥ = f a) := by
  rw [foldl_skipping p (fun s a => max s (f a))]
  have hmap : ∀ l : List A, l.foldl (fun s a => max s (f a)) ⊥ = (l.map f).foldl max ⊥ := fun l =>
    (List.foldl_map).symm
  rw [hmap]
  constructor
  · intro a ha hp
    apply (le_foldl_max _ _).2
    exact List.mem_map_of_mem (List.mem_filter.2 ⟨ha, by simpa using hp⟩)
  · rcases foldl_max_mem ((l.filter fun a => ¬ p a).map f) ⊥ with h | h
    · exact Or.inl h
    · obtain ⟨a, ha, heq⟩ := List.mem_map.1 h
      obtain ⟨ha, hp⟩ := List.mem_filter.1 ha
      exact Or.inr ⟨a, ha, by simpa using hp, heq.symm⟩

theorem foldl_min_skipping [OrderTop K] (p : A → Prop) [DecidablePred p] (f : A → K) (l : List A) :
    (∀ a ∈ l, ¬ p a → l.foldl (fun s a => if p a then s else min s (f a)) ⊤ ≤ f a) ∧
      (l.foldl (fun s a => if p a then s else min s (f a)) ⊤ = ⊤ ∨ ∃ a ∈ l, ¬ p a ∧
        l.foldl (fun s a => if p a then s else min s (f a)) ⊤ = f a) :=
  foldl_max_skipping (K := Kᵒᵈ) p f l

end FrankenSim.Library
