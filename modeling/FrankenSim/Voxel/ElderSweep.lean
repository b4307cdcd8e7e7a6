import FrankenSim.Library.Elders
import FrankenSim.Voxel.Grid

/-!
# The sweep keeps elders

Between two voxels the sweep represents the components of the activated voxels: the
union-find tells them apart, and the birth voxel of every root is the elder of its
component. Activating a voxel adds an elder, and looking at a neighbour changes nothing
or retires the younger of two elders.
-/
namespace FrankenSim.Voxel

open Library

variable {V : Type} [LinearOrder V]

/-- The union-find and the births stand for the components and their elders. -/
structure Holds (value : ℕ → V) (r : ℕ → ℕ → Prop) (S W : Set ℕ) (s : Sweep V) : Prop where
  roots : ∀ a b, s.uf.root a = s.uf.root b ↔ Library.Joined r S a b
  active : ∀ i, s.active i = true ↔ i ∈ S
  elders : Elders value r S W
  elder : ∀ i ∈ S, s.birthIndex (s.uf.root i) ∈ W
  joined : ∀ i ∈ S, Library.Joined r S (s.birthIndex (s.uf.root i)) i
  birth : ∀ i ∈ S, s.birth (s.uf.root i) = value (s.birthIndex (s.uf.root i))

/-- What a look at a neighbour does to the elders and to the bars. -/
inductive Met (value : ℕ → V) (v : V) (r r' : ℕ → ℕ → Prop) (S W : Set ℕ)
    (bars : List (Bar V)) : Set ℕ → List (Bar V) → Prop
  | kept (hsame : ∀ a b, Library.Joined r' S a b ↔ Library.Joined r S a b) : Met value v r r' S W bars W bars
  | retired (w w' : ℕ) (hw : w ∈ W) (hw' : w' ∈ W) (hne : w' ≠ w) (hle : value w' ≤ value w)
      (hunites : Unites r r' S w w') :
      Met value v r r' S W bars (W \ {w})
        (if v > value w then bars ++ [⟨value w, w, v⟩] else bars)

variable {value : ℕ → V} {r r' : ℕ → ℕ → Prop} {S W : Set ℕ} {s : Sweep V} {i nb : ℕ} {v : V}

namespace Holds

theorem start [OrderTop V] : Holds value r ∅ ∅ Sweep.start where
  roots := by
    intro a b
    rw [Sweep.start, UnionFind.root_new, UnionFind.root_new]
    constructor
    · rintro rfl
      exact Library.Joined.refl a
    · intro h
      exact h.eq_of_not_mem (Set.notMem_empty a)
  active := fun i => iff_of_false Bool.false_ne_true (Set.notMem_empty i)
  elders := Elders.empty
  elder := fun i hi => absurd hi (Set.notMem_empty i)
  joined := fun i hi => absurd hi (Set.notMem_empty i)
  birth := fun i hi => absurd hi (Set.notMem_empty i)

theorem congr (h : Holds value r S W s) (hr : ∀ a b, Library.Joined r' S a b ↔ Library.Joined r S a b) :
    Holds value r' S W s where
  roots := fun a b => (h.roots a b).trans (hr a b).symm
  active := h.active
  elders := h.elders.congr hr
  elder := h.elder
  joined := fun i hi => (hr _ i).mpr (h.joined i hi)
  birth := h.birth

theorem of_root (h : Holds value r S W s) {u : UnionFind} (hu : ∀ z, u.root z = s.uf.root z) :
    Holds value r S W { s with uf := u } where
  roots := by
    intro a b
    rw [hu, hu]
    exact h.roots a b
  active := h.active
  elders := h.elders
  elder := by
    intro i hi
    rw [hu]
    exact h.elder i hi
  joined := by
    intro i hi
    rw [hu]
    exact h.joined i hi
  birth := by
    intro i hi
    rw [hu]
    exact h.birth i hi

theorem root_inactive (h : Holds value r S W s) (hi : i ∉ S) : s.uf.root i = i :=
  (((h.roots i (s.uf.root i)).mp (UnionFind.root_root s.uf i).symm).eq_of_not_mem hi).symm

theorem activate (h : Holds value r S W s) (hi : i ∉ S)
    (hfree : ∀ a b, r a b → a ≠ i ∧ b ≠ i) :
    Holds value r (insert i S) (insert i W) (s.activate i (value i)) := by
  have hother : ∀ j ∈ S, s.uf.root j ≠ i := by
    intro j hj hroot
    have hjoined := (h.roots j i).mp (by rw [hroot, h.root_inactive hi])
    exact hi ((Library.Joined.mem_iff hjoined).mp hj)
  have hroots : ∀ a b, s.uf.root a = s.uf.root b ↔ Library.Joined r (insert i S) a b := fun a b =>
    (h.roots a b).trans (joined_insert hfree).symm
  have hactive : ∀ j, (s.activate i (value i)).active j = true ↔ j ∈ insert i S := by
    intro j
    unfold Sweep.activate
    dsimp only
    rw [Function.update_apply, Set.mem_insert_iff, ← h.active j]
    split
    case isTrue hj => exact iff_of_true rfl (Or.inl hj)
    case isFalse hj => rw [or_iff_right hj]
  refine ⟨hroots, hactive, h.elders.insert hi hfree, ?_, ?_, ?_⟩ <;> intro j hj <;>
    obtain rfl | hj := hj <;> unfold Sweep.activate <;> dsimp only
  · rw [h.root_inactive hi, Function.update_self]
    exact Set.mem_insert j W
  · rw [Function.update_of_ne (hother j hj)]
    exact Set.mem_insert_of_mem i (h.elder j hj)
  · rw [h.root_inactive hi, Function.update_self]
    exact Library.Joined.refl j
  · rw [Function.update_of_ne (hother j hj)]
    exact (joined_insert hfree).mpr (h.joined j hj)
  · rw [h.root_inactive hi, Function.update_self, Function.update_self]
  · rw [Function.update_of_ne (hother j hj), Function.update_of_ne (hother j hj)]
    exact h.birth j hj

/-- When two components are united, the common root takes over the elder that stays. -/
theorem replace (h : Holds value r S W s) {w w' a b : ℕ} (hunites : Unites r r' S w w')
    (hw : w ∈ W) (hw' : w' ∈ W) (hne : w' ≠ w) (hle : value w' ≤ value w)
    (hends : s.uf.root w = s.uf.root a ∧ s.uf.root w' = s.uf.root b ∨
      s.uf.root w = s.uf.root b ∧ s.uf.root w' = s.uf.root a) {u : UnionFind}
    (hu : ∀ z, u.root z = (s.uf.union a b).1.root z) {ρ : ℕ}
    (hρ : ρ = min (s.uf.root a) (s.uf.root b)) (bars : List (Bar V)) :
    Holds value r' S (W \ {w})
      ⟨u, Function.update s.birth ρ (value w'), Function.update s.birthIndex ρ w', s.active,
        bars⟩ := by
  have hroots : ∀ x y, u.root x = u.root y ↔ Library.Joined r' S x y := by
    intro x y
    rw [hu, hu, UnionFind.root_union_eq_iff, hunites x y, ← h.roots x y, ← h.roots x w,
      ← h.roots w' y, ← h.roots x w', ← h.roots w y]
    obtain ⟨ha, hb⟩ | ⟨ha, hb⟩ := hends <;> rw [ha, hb]
    exact or_congr_right or_comm
  have hnew : ∀ j ∈ S, u.root j = ρ ∧ (s.uf.root j = s.uf.root w ∨ s.uf.root j = s.uf.root w') ∨
      u.root j ≠ ρ ∧ u.root j = s.uf.root j ∧ s.uf.root j ≠ s.uf.root w := by
    intro j hj
    rw [hu, UnionFind.root_union]
    obtain ⟨ha, hb⟩ | ⟨ha, hb⟩ := hends <;> rw [ha, hb, hρ] <;> clear hroots hunites <;>
      split <;> grind
  have hcase : ∀ j ∈ S, (u.root j = ρ ∧ Library.Joined r' S w' j) ∨
      u.root j ≠ ρ ∧ u.root j = s.uf.root j ∧ s.birthIndex (s.uf.root j) ≠ w := by
    intro j hj
    obtain ⟨heq, hold⟩ | ⟨hneq, heq, hold⟩ := hnew j hj
    · refine Or.inl ⟨heq, (hunites w' j).mpr ?_⟩
      obtain hold | hold := hold
      · exact Or.inr (Or.inr ⟨Library.Joined.refl w', (h.roots w j).mp hold.symm⟩)
      · exact Or.inl ((h.roots w' j).mp hold.symm)
    · refine Or.inr ⟨hneq, heq, ?_⟩
      intro hindex
      apply hold
      rw [← hindex]
      exact ((h.roots _ j).mpr (h.joined j hj)).symm
  refine ⟨hroots, h.active, h.elders.unite hunites hw hw' hne hle, ?_, ?_, ?_⟩ <;> intro j hj <;>
    dsimp only <;> obtain ⟨heq, hjoined⟩ | ⟨hneq, heq, hindex⟩ := hcase j hj
  · rw [heq, Function.update_self]
    exact ⟨hw', hne⟩
  · rw [Function.update_of_ne hneq, heq]
    exact ⟨h.elder j hj, hindex⟩
  · rw [heq, Function.update_self]
    exact hjoined
  · rw [Function.update_of_ne hneq, heq]
    exact (hunites _ j).mpr (Or.inl (h.joined j hj))
  · rw [heq, Function.update_self, Function.update_self]
  · rw [Function.update_of_ne hneq, Function.update_of_ne hneq, heq]
    exact h.birth j hj

/-- Two components that meet are united, and the younger elder goes. -/
theorem meet (h : Holds value r S W s) (hi : i ∈ S) (hnb : nb ∈ S)
    (hne : s.uf.root i ≠ s.uf.root nb) :
    ∃ W', Holds value (withEdge r i nb) S W' (s.meet v (s.uf.root i) (s.uf.root nb)) ∧
      Met value v r (withEdge r i nb) S W s.bars W'
        (s.meet v (s.uf.root i) (s.uf.root nb)).bars := by
  have hunites := unites_withEdge hi hnb (h.joined i hi) (h.joined nb hnb)
  have hri : s.uf.root (s.birthIndex (s.uf.root i)) = s.uf.root i :=
    (h.roots _ i).mpr (h.joined i hi)
  have hrn : s.uf.root (s.birthIndex (s.uf.root nb)) = s.uf.root nb :=
    (h.roots _ nb).mpr (h.joined nb hnb)
  have hindex : s.birthIndex (s.uf.root i) ≠ s.birthIndex (s.uf.root nb) := by
    intro heq
    apply hne
    rw [← hri, heq, hrn]
  have hu : ∀ z, (((s.uf.union (s.uf.root i) (s.uf.root nb)).1.find (s.uf.root i)).1).root z =
      (s.uf.union (s.uf.root i) (s.uf.root nb)).1.root z := fun z => UnionFind.find_root _ _ z
  have hρ : ((s.uf.union (s.uf.root i) (s.uf.root nb)).1.find (s.uf.root i)).2 =
      min (s.uf.root (s.uf.root i)) (s.uf.root (s.uf.root nb)) := by
    rw [UnionFind.find_snd, UnionFind.root_union]
    split
    case isTrue => rfl
    case isFalse hmax =>
      obtain hle | hle := le_total (s.uf.root (s.uf.root i)) (s.uf.root (s.uf.root nb))
      · exact (min_eq_left hle).symm
      · exact absurd (max_eq_left hle).symm hmax
  unfold Sweep.meet
  dsimp only
  rw [h.birth i hi, h.birth nb hnb]
  by_cases hle : value (s.birthIndex (s.uf.root i)) ≤ value (s.birthIndex (s.uf.root nb))
  · simp only [if_pos hle]
    exact ⟨_, h.replace hunites.symm (h.elder nb hnb) (h.elder i hi) hindex hle
      (Or.inr ⟨by rw [hrn, UnionFind.root_root], by rw [hri, UnionFind.root_root]⟩) hu hρ _,
      Met.retired _ _ (h.elder nb hnb) (h.elder i hi) hindex hle hunites.symm⟩
  · simp only [if_neg hle]
    exact ⟨_, h.replace hunites (h.elder i hi) (h.elder nb hnb) hindex.symm (le_of_not_ge hle)
      (Or.inl ⟨by rw [hri, UnionFind.root_root], by rw [hrn, UnionFind.root_root]⟩) hu hρ _,
      Met.retired _ _ (h.elder i hi) (h.elder nb hnb) hindex.symm (le_of_not_ge hle) hunites⟩

theorem visit (h : Holds value r S W s) (hi : i ∈ S) (v : V) (nb : ℕ) :
    ∃ W', Holds value (withEdge r i nb) S W' (s.visit i v nb) ∧
      Met value v r (withEdge r i nb) S W s.bars W' (s.visit i v nb).bars := by
  unfold Sweep.visit
  split
  case isTrue hinactive =>
    -- an edge to an inactive voxel joins nothing
    have hnb : nb ∉ S := by
      rw [← h.active nb]
      simpa using hinactive
    have hsame : ∀ a b, Library.Joined (withEdge r i nb) S a b ↔ Library.Joined r S a b := by
      intro a b
      constructor
      · apply Relation.EqvGen.mono
        rintro a b ⟨ha, hb, hr | ⟨-, rfl⟩⟩
        · exact ⟨ha, hb, hr⟩
        · exact absurd hb hnb
      · exact Library.Joined.mono subset_rfl fun _ _ => Or.inl
    exact ⟨W, h.congr hsame, Met.kept hsame⟩
  case isFalse hactive =>
    have hnb : nb ∈ S := by
      rw [← h.active nb]
      simpa using hactive
    dsimp only
    rw [UnionFind.find_snd, UnionFind.find_snd, UnionFind.find_root]
    have hroot : ∀ z, ((s.uf.find i).1.find nb).1.root z = s.uf.root z := by
      intro z
      rw [UnionFind.find_root, UnionFind.find_root]
    split
    case isTrue heq =>
      have hsame := Elders.joined_congr
        (unites_withEdge hi hnb (Library.Joined.refl i) ((h.roots i nb).mp heq))
      exact ⟨W, (h.of_root hroot).congr hsame, Met.kept hsame⟩
    case isFalse hne =>
      have hmeet := @meet V _ value r S W _ i nb v (h.of_root hroot) hi hnb
      dsimp only at hmeet
      rw [hroot, hroot] at hmeet
      exact hmeet hne

/-- Edges to several neighbours. -/
def withEdges (r : ℕ → ℕ → Prop) (i : ℕ) (nbs : List ℕ) : ℕ → ℕ → Prop :=
  nbs.foldl (fun r nb => withEdge r i nb) r

theorem withEdges_iff {a b : ℕ} (nbs : List ℕ) :
    withEdges r i nbs a b ↔ r a b ∨ a = i ∧ b ∈ nbs := by
  induction nbs generalizing r with
  | nil => simp [withEdges]
  | cons nb nbs ih =>
    have hcons : withEdges r i (nb :: nbs) = withEdges (withEdge r i nb) i nbs := rfl
    rw [hcons, ih, withEdge, List.mem_cons]
    grind

/-- Looking at all neighbours adds their edges, and keeps what every look keeps. -/
theorem foldl_visit {Q : (ℕ → ℕ → Prop) → Set ℕ → List (Bar V) → Prop} (hi : i ∈ S)
    (nbs : List ℕ) (hQ : ∀ r, ∀ nb ∈ nbs, ∀ W bars W' bars', Elders value r S W →
      Met value v r (withEdge r i nb) S W bars W' bars' → Q r W bars →
      Q (withEdge r i nb) W' bars')
    (h : Holds value r S W s) (hstart : Q r W s.bars) :
    ∃ W', Holds value (withEdges r i nbs) S W' (nbs.foldl (Sweep.visit i v) s) ∧
      Q (withEdges r i nbs) W' (nbs.foldl (Sweep.visit i v) s).bars := by
  induction nbs generalizing r W s with
  | nil => exact ⟨W, h, hstart⟩
  | cons nb nbs ih =>
    obtain ⟨W', h', hmet⟩ := h.visit hi v nb
    apply ih _ h' (hQ r nb List.mem_cons_self W _ W' _ h.elders hmet hstart)
    intro r c hc
    exact hQ r c (List.mem_cons_of_mem nb hc)

end Holds

end FrankenSim.Voxel
