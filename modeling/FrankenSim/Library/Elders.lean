import FrankenSim.Library.Components
import Mathlib.Order.Defs.LinearOrder

/-!
# Elders

Points with values are joined step by step. An elder is a point of least value in its
component, one for every component. A new point is its own elder, and when two components
are united the elder with the larger value goes. Counting elders below a level counts the
components that reach below it.
-/
namespace FrankenSim.Library

variable {α V : Type*} [LinearOrder V] {value : α → V} {r r' : α → α → Prop} {S W : Set α}
  {a b i w w' x y : α}

/-- One point of least value from every component. -/
structure Elders (value : α → V) (r : α → α → Prop) (S W : Set α) : Prop
    extends Transversal r S W where
  least : ∀ w ∈ W, ∀ a, Joined r S w a → value w ≤ value a

/-- A relation with one more pair. -/
def withEdge (r : α → α → Prop) (x y : α) : α → α → Prop := fun a b => r a b ∨ a = x ∧ b = y

/-- A second relation joins the components of two points and nothing else. -/
def Unites (r r' : α → α → Prop) (S : Set α) (w w' : α) : Prop :=
  ∀ a b, Joined r' S a b ↔
    Joined r S a b ∨ Joined r S a w ∧ Joined r S w' b ∨ Joined r S a w' ∧ Joined r S w b

/-- The components that reach below a level. -/
def componentsBelow (value : α → V) (r : α → α → Prop) (S : Set α) (l : V) : Set (Set α) :=
  {C ∈ components r S | ∃ a ∈ C, value a < l}

/-- The points of a set below a level, and up to it. -/
def sublevel (value : α → V) (P : Set α) (l : V) : Set α := {p ∈ P | value p < l}

def closedSublevel (value : α → V) (P : Set α) (l : V) : Set α := {p ∈ P | value p ≤ l}

/-- A point is of least value in its component below its death, and at its death it is
joined to another point that is born no later. -/
structure Dies (value : α → V) (r : α → α → Prop) (P : Set α) (w : α) (d : V) : Prop where
  lt : value w < d
  eldest : ∀ a, Joined r (sublevel value P d) w a → value w ≤ value a
  meets : ∃ a, value a ≤ value w ∧ Joined r (closedSublevel value P d) w a ∧
    ¬ Joined r (sublevel value P d) w a

/-- A point outside of the set is joined to itself only. -/
theorem Joined.eq_of_not_mem (h : Joined r S a b) (ha : a ∉ S) : a = b := by
  induction h with
  | rel a b h => exact absurd h.1 ha
  | refl => rfl
  | symm a b h ih => exact (ih fun hmem => ha ((Joined.mem_iff h).mp hmem)).symm
  | trans a b c h h' ih ih' =>
    have hab := ih ha
    subst hab
    exact ih' ha

/-- A point without neighbours joins nothing. -/
theorem joined_insert (hfree : ∀ a b, r a b → a ≠ i ∧ b ≠ i) :
    Joined r (insert i S) a b ↔ Joined r S a b := by
  constructor
  · intro h
    induction h with
    | rel a b h =>
      obtain ⟨ha, hb⟩ := hfree a b h.2.2
      exact Joined.step (Set.mem_of_mem_insert_of_ne h.1 ha)
        (Set.mem_of_mem_insert_of_ne h.2.1 hb) h.2.2
    | refl => exact Joined.refl _
    | symm _ _ _ ih => exact ih.symm
    | trans _ _ _ _ _ ih ih' => exact ih.trans ih'
  · exact Joined.mono (Set.subset_insert i S) fun _ _ h => h

theorem Unites.symm (h : Unites r r' S w w') : Unites r r' S w' w := by
  intro a b
  rw [h a b]
  exact or_congr_right or_comm

/-- A new edge unites the components of its ends. -/
theorem unites_withEdge (hx : x ∈ S) (hy : y ∈ S) (hw : Joined r S w x) (hw' : Joined r S w' y) :
    Unites r (withEdge r x y) S w w' := by
  have hmono : ∀ {c d}, Joined r S c d → Joined (withEdge r x y) S c d :=
    fun h => Joined.mono subset_rfl (fun _ _ => Or.inl) h
  have hedge : Joined (withEdge r x y) S w w' :=
    (hmono hw).trans ((Joined.step hx hy (Or.inr ⟨rfl, rfl⟩)).trans (hmono hw').symm)
  intro a b
  constructor
  · intro h
    -- joined points have one component, so that the cases compose as equations
    simp only [← component_eq_iff] at hw hw' ⊢
    induction h with
    | rel a b h =>
      obtain ⟨ha, hb, hr | ⟨rfl, rfl⟩⟩ := h
      · exact Or.inl (component_eq_iff.mpr (Joined.step ha hb hr))
      · exact Or.inr (Or.inl ⟨hw.symm, hw'⟩)
    | refl => exact Or.inl rfl
    | symm _ _ _ ih => grind
    | trans _ _ _ _ _ ih ih' => grind
  · rintro (h | ⟨h, h'⟩ | ⟨h, h'⟩)
    · exact hmono h
    · exact (hmono h).trans (hedge.trans (hmono h'))
    · exact (hmono h).trans (hedge.symm.trans (hmono h'))

namespace Elders

theorem empty : Elders value r ∅ ∅ where
  subset := subset_rfl
  meets := fun _ ha => absurd ha (Set.notMem_empty _)
  apart := fun _ ht => absurd ht (Set.notMem_empty _)
  least := fun _ hw => absurd hw (Set.notMem_empty _)

theorem congr (h : Elders value r S W) (hr : ∀ a b, Joined r' S a b ↔ Joined r S a b) :
    Elders value r' S W where
  subset := h.subset
  meets := by
    intro a ha
    obtain ⟨t, ht, hjoined⟩ := h.meets a ha
    exact ⟨t, ht, (hr t a).mpr hjoined⟩
  apart := fun t ht t' ht' hjoined => h.apart t ht t' ht' ((hr t t').mp hjoined)
  least := fun w hw a hjoined => h.least w hw a ((hr w a).mp hjoined)

/-- A new point without neighbours is an elder. -/
theorem insert (h : Elders value r S W) (hi : i ∉ S) (hfree : ∀ a b, r a b → a ≠ i ∧ b ≠ i) :
    Elders value r (insert i S) (insert i W) where
  subset := Set.insert_subset_insert h.subset
  meets := by
    intro a ha
    obtain rfl | ha := ha
    · exact ⟨a, Set.mem_insert a W, Joined.refl a⟩
    · obtain ⟨t, ht, hjoined⟩ := h.meets a ha
      exact ⟨t, Set.mem_insert_of_mem i ht, (joined_insert hfree).mpr hjoined⟩
  apart := by
    intro t ht t' ht' hjoined
    rw [joined_insert hfree] at hjoined
    obtain rfl | ht := ht
    · exact hjoined.eq_of_not_mem hi
    · obtain rfl | ht' := ht'
      · exact (hjoined.symm.eq_of_not_mem hi).symm
      · exact h.apart t ht t' ht' hjoined
  least := by
    intro t ht a hjoined
    rw [joined_insert hfree] at hjoined
    obtain rfl | ht := ht
    · exact le_of_eq (congrArg value (hjoined.eq_of_not_mem hi))
    · exact h.least t ht a hjoined

/-- When two components are united, the elder that is not smaller goes. -/
theorem unite (h : Elders value r S W) (hunites : Unites r r' S w w') (hw : w ∈ W)
    (hw' : w' ∈ W) (hne : w' ≠ w) (hle : value w' ≤ value w) : Elders value r' S (W \ {w}) where
  subset := fun _ ht => h.subset ht.1
  meets := by
    intro a ha
    obtain ⟨t, ht, hjoined⟩ := h.meets a ha
    by_cases htw : t = w
    · subst htw
      exact ⟨w', ⟨hw', hne⟩, (hunites w' a).mpr (Or.inr (Or.inr ⟨Joined.refl w', hjoined⟩))⟩
    · exact ⟨t, ⟨ht, htw⟩, (hunites t a).mpr (Or.inl hjoined)⟩
  apart := by
    intro t ht t' ht' hjoined
    obtain hold | ⟨htw, -⟩ | ⟨-, htw⟩ := (hunites t t').mp hjoined
    · exact h.apart t ht.1 t' ht'.1 hold
    · exact absurd (h.apart t ht.1 w hw htw) ht.2
    · exact absurd (h.apart w hw t' ht'.1 htw).symm ht'.2
  least := by
    intro t ht a hjoined
    obtain hold | ⟨htw, -⟩ | ⟨htw, hwa⟩ := (hunites t a).mp hjoined
    · exact h.least t ht.1 a hold
    · exact absurd (h.apart t ht.1 w hw htw) ht.2
    · have htw' := h.apart t ht.1 w' hw' htw
      subst htw'
      exact le_trans hle (h.least w hw a hwa)

/-- An edge inside of a component changes nothing. -/
theorem joined_congr (hunites : Unites r r' S w w) (a b : α) :
    Joined r' S a b ↔ Joined r S a b := by
  rw [hunites a b]
  constructor
  · rintro (h | ⟨h, h'⟩ | ⟨h, h'⟩)
    · exact h
    · exact h.trans h'
    · exact h.trans h'
  · exact Or.inl

/-- The elders below a level are as many as the components that reach below it. -/
theorem ncard_componentsBelow (h : Elders value r S W) (l : V) :
    (componentsBelow value r S l).ncard = (sublevel value W l).ncard := by
  have himage : componentsBelow value r S l = component r S '' sublevel value W l := by
    apply Set.Subset.antisymm
    · rintro _ ⟨⟨a, ha, rfl⟩, b, hb, hlt⟩
      obtain ⟨t, ht, hjoined⟩ := h.meets a ha
      exact ⟨t, ⟨ht, lt_of_le_of_lt (h.least t ht b (hjoined.trans hb)) hlt⟩,
        component_eq_iff.mpr hjoined⟩
    · rintro _ ⟨t, ⟨ht, hlt⟩, rfl⟩
      exact ⟨⟨t, h.subset ht, rfl⟩, t, Joined.refl t, hlt⟩
  rw [himage]
  apply Set.InjOn.ncard_image
  intro t ht t' ht' heq
  exact h.apart t ht.1 t' ht'.1 (component_eq_iff.mp heq)

/-- An elder that goes when all points below a level are joined dies at that level. -/
theorem dies {P : Set α} {d : V} {r₀ : α → α → Prop} (h : Elders value r S W)
    (hunites : Unites r r' S w w') (hw : w ∈ W) (hw' : w' ∈ W) (hne : w' ≠ w)
    (hle : value w' ≤ value w) (hlt : value w < d)
    (hbefore : ∀ a b, Joined r₀ (sublevel value P d) a b → Joined r S a b)
    (hafter : ∀ a b, Joined r' S a b → Joined r₀ (closedSublevel value P d) a b) :
    Dies value r₀ P w d where
  lt := hlt
  eldest := fun a ha => h.least w hw a (hbefore w a ha)
  meets := by
    have hmeet : Joined r' S w w' :=
      (hunites w w').mpr (Or.inr (Or.inl ⟨Joined.refl w, Joined.refl w'⟩))
    have hapart : ¬ Joined r₀ (sublevel value P d) w w' := by
      intro hjoined
      exact hne (h.apart w hw w' hw' (hbefore w w' hjoined)).symm
    exact ⟨w', hle, hafter w w' hmeet, hapart⟩

end Elders

end FrankenSim.Library
