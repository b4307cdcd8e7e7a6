import Mathlib.Data.Set.Card
import Mathlib.Logic.Relation

/-!
# Components of a set under a relation

Two elements of a set are joined when the relation links them through elements of the
set. A transversal has one element of every component, so its size is their number.
-/
namespace FrankenSim.Library

variable {V : Type*} {r r' : V → V → Prop} {S T : Set V} {a b : V}

/-- Linked by the relation, all steps inside of the set. -/
def Joined (r : V → V → Prop) (S : Set V) : V → V → Prop :=
  Relation.EqvGen fun a b => a ∈ S ∧ b ∈ S ∧ r a b

/-- All that is joined to an element. -/
def component (r : V → V → Prop) (S : Set V) (a : V) : Set V := {b | Joined r S a b}

/-- The components of the elements of a set. -/
def components (r : V → V → Prop) (S : Set V) : Set (Set V) := component r S '' S

namespace Joined

theorem refl (a : V) : Joined r S a a := Relation.EqvGen.refl a

theorem symm (h : Joined r S a b) : Joined r S b a := Relation.EqvGen.symm _ _ h

theorem trans {c : V} (h : Joined r S a b) (h' : Joined r S b c) : Joined r S a c :=
  Relation.EqvGen.trans _ _ _ h h'

theorem step (ha : a ∈ S) (hb : b ∈ S) (h : r a b) : Joined r S a b :=
  Relation.EqvGen.rel _ _ ⟨ha, hb, h⟩

theorem mono (hS : S ⊆ T) (hr : ∀ a b, r a b → r' a b) (h : Joined r S a b) : Joined r' T a b :=
  Relation.EqvGen.mono (fun _ _ h => ⟨hS h.1, hS h.2.1, hr _ _ h.2.2⟩) a b h

/-- Only elements of the set are joined to others. -/
theorem mem_iff (h : Joined r S a b) : a ∈ S ↔ b ∈ S := by
  induction h with
  | rel a b h => exact iff_of_true h.1 h.2.1
  | refl => rfl
  | symm _ _ _ ih => exact ih.symm
  | trans _ _ _ _ _ ih₁ ih₂ => exact ih₁.trans ih₂

end Joined

theorem component_eq_iff : component r S a = component r S b ↔ Joined r S a b := by
  constructor
  · intro h
    have hb : b ∈ component r S b := Joined.refl b
    rwa [← h] at hb
  · intro h
    ext c
    exact ⟨fun hc => h.symm.trans hc, fun hc => h.trans hc⟩

/-- One element of every component. -/
structure Transversal (r : V → V → Prop) (S T : Set V) : Prop where
  subset : T ⊆ S
  meets : ∀ a ∈ S, ∃ t ∈ T, Joined r S t a
  apart : ∀ t ∈ T, ∀ t' ∈ T, Joined r S t t' → t = t'

theorem Transversal.ncard_components (h : Transversal r S T) :
    (components r S).ncard = T.ncard := by
  have himage : components r S = component r S '' T := by
    apply Set.Subset.antisymm
    · rintro _ ⟨a, ha, rfl⟩
      obtain ⟨t, ht, hjoined⟩ := h.meets a ha
      exact ⟨t, ht, component_eq_iff.2 hjoined⟩
    · exact Set.image_mono h.subset
  rw [himage]
  apply Set.InjOn.ncard_image
  intro t ht t' ht' heq
  exact h.apart t ht t' ht' (component_eq_iff.1 heq)

end FrankenSim.Library
