import Mathlib.Data.Nat.Basic
import Mathlib.Logic.Function.Basic
import Mathlib.Logic.Relation
import Mathlib.Order.MinMax

/-!
# Union-find with smaller roots

Every element points at an element that is no larger, and the roots point at
themselves. Finding a root halves the path on the way and changes no root. A union
hangs the larger of two roots under the smaller, so the roots tell exactly the
equivalence that the united pairs generate.
-/
namespace FrankenSim.Library

structure UnionFind where
  parent : ℕ → ℕ
  parent_le : ∀ x, parent x ≤ x

namespace UnionFind

/-- Every element is its own root. -/
def new : UnionFind := ⟨id, fun _ => Nat.le_refl _⟩

/-- Point an element at one that is no larger. -/
def setParent (u : UnionFind) (x y : ℕ) (h : y ≤ x) : UnionFind where
  parent := Function.update u.parent x y
  parent_le := by
    intro z
    rw [Function.update_apply]
    split
    case isTrue hz => exact hz ▸ h
    case isFalse => exact u.parent_le z

theorem grandparent_le (u : UnionFind) (x : ℕ) : u.parent (u.parent x) ≤ x :=
  Nat.le_trans (u.parent_le _) (u.parent_le _)

theorem grandparent_lt {u : UnionFind} {x : ℕ} (h : u.parent x ≠ x) :
    u.parent (u.parent x) < x :=
  Nat.lt_of_le_of_lt (u.parent_le _) (Nat.lt_of_le_of_ne (u.parent_le _) h)

/-- The root of an element, after halving its path. -/
def find (u : UnionFind) (x : ℕ) : UnionFind × ℕ :=
  if u.parent x = x then (u, x)
  else (u.setParent x (u.parent (u.parent x)) (u.grandparent_le x)).find (u.parent (u.parent x))
termination_by x
decreasing_by exact grandparent_lt ‹_›

/-- Hang the larger root under the smaller, and tell whether they differed. -/
def union (u : UnionFind) (a b : ℕ) : UnionFind × Bool :=
  let first := u.find a
  let second := first.1.find b
  if first.2 = second.2 then (second.1, false)
  else (second.1.setParent (max first.2 second.2) (min first.2 second.2) (min_le_max), true)

/-- The element at the end of a path. -/
def root (u : UnionFind) (x : ℕ) : ℕ :=
  if u.parent x = x then x else u.root (u.parent x)
termination_by x
decreasing_by exact Nat.lt_of_le_of_ne (u.parent_le _) ‹_›

variable {u : UnionFind} {x y : ℕ}

theorem root_of_parent_eq (h : u.parent x = x) : u.root x = x := by
  rw [root, if_pos h]

theorem root_parent (u : UnionFind) (x : ℕ) : u.root (u.parent x) = u.root x := by
  by_cases h : u.parent x = x
  · rw [h]
  · conv_rhs => rw [root, if_neg h]

theorem parent_root (u : UnionFind) (x : ℕ) : u.parent (u.root x) = u.root x := by
  fun_induction root u x with
  | case1 x h => exact h
  | case2 x h ih => exact ih

@[simp] theorem root_root (u : UnionFind) (x : ℕ) : u.root (u.root x) = u.root x :=
  root_of_parent_eq (u.parent_root x)

theorem root_eq_self_iff : u.root x = x ↔ u.parent x = x := by
  constructor
  · intro h
    rw [← h, parent_root]
  · exact root_of_parent_eq

@[simp] theorem root_new (x : ℕ) : new.root x = x := root_of_parent_eq rfl

/-- Pointing an element at another of the same root keeps all roots. -/
theorem root_setParent_of_root_eq {h : y ≤ x} (hne : u.parent x ≠ x) (hlt : y < x)
    (hroot : u.root y = u.root x) (z : ℕ) : (u.setParent x y h).root z = u.root z := by
  induction z using Nat.strong_induction_on with
  | _ z ih =>
    by_cases hz : z = x
    · subst hz
      have hparent : (u.setParent z y h).parent z = y := Function.update_self _ _ _
      rw [← root_parent, hparent, ih y hlt, hroot]
    · have hparent : (u.setParent x y h).parent z = u.parent z := Function.update_of_ne hz _ _
      by_cases hself : u.parent z = z
      · rw [root_of_parent_eq hself, root_of_parent_eq (hparent.trans hself)]
      · rw [← root_parent, hparent, ih _ (Nat.lt_of_le_of_ne (u.parent_le z) hself), root_parent]

/-- Finding returns the root and keeps all roots. -/
theorem find_spec (u : UnionFind) (x : ℕ) :
    (u.find x).2 = u.root x ∧ ∀ z, (u.find x).1.root z = u.root z := by
  fun_induction find u x with
  | case1 u x h => exact ⟨(root_of_parent_eq h).symm, fun _ => rfl⟩
  | case2 u x h ih =>
    have hgrand : u.root (u.parent (u.parent x)) = u.root x := by rw [root_parent, root_parent]
    have hkeep := @root_setParent_of_root_eq u x _ (u.grandparent_le x) h (grandparent_lt h) hgrand
    constructor
    · rw [ih.1, hkeep, hgrand]
    · intro z
      rw [ih.2, hkeep]

@[simp] theorem find_snd (u : UnionFind) (x : ℕ) : (u.find x).2 = u.root x := (u.find_spec x).1

@[simp] theorem find_root (u : UnionFind) (x z : ℕ) : (u.find x).1.root z = u.root z :=
  (u.find_spec x).2 z

/-- Hanging one root under a smaller one moves its elements there. -/
theorem root_setParent_root {h : y ≤ x} (hx : u.parent x = x) (hy : u.parent y = y) (hne : y ≠ x)
    (z : ℕ) : (u.setParent x y h).root z = if u.root z = x then y else u.root z := by
  have hy' : (u.setParent x y h).root y = y :=
    root_of_parent_eq ((Function.update_of_ne hne _ _).trans hy)
  induction z using Nat.strong_induction_on with
  | _ z ih =>
    by_cases hz : z = x
    · subst hz
      have hparent : (u.setParent z y h).parent z = y := Function.update_self _ _ _
      rw [← root_parent, hparent, hy', root_of_parent_eq hx, if_pos rfl]
    · have hparent : (u.setParent x y h).parent z = u.parent z := Function.update_of_ne hz _ _
      by_cases hself : u.parent z = z
      · rw [root_of_parent_eq hself, root_of_parent_eq (hparent.trans hself), if_neg hz]
      · rw [← root_parent, hparent, ih _ (Nat.lt_of_le_of_ne (u.parent_le z) hself), root_parent]

/-- After a union the larger of the two roots is replaced by the smaller. -/
theorem root_union (u : UnionFind) (a b z : ℕ) :
    (u.union a b).1.root z =
      if u.root z = max (u.root a) (u.root b) then min (u.root a) (u.root b) else u.root z := by
  unfold union
  simp only [find_snd, find_root]
  split
  case isTrue h =>
    rw [find_root, find_root, h, max_self, min_self]
    split
    case isTrue hz => exact hz
    case isFalse => rfl
  case isFalse h =>
    have hself : ∀ c, c = u.root a ∨ c = u.root b → ((u.find a).1.find b).1.parent c = c := by
      intro c hc
      apply root_eq_self_iff.1
      rw [find_root, find_root]
      rcases hc with rfl | rfl <;> exact root_root u _
    rw [root_setParent_root (hself _ (max_choice _ _)) (hself _ (min_choice _ _)), find_root,
      find_root]
    intro heq
    apply h
    exact inf_eq_sup.1 heq

/-- After a union the roots agree where they did, and between the two classes. -/
theorem root_union_eq_iff (u : UnionFind) (a b x y : ℕ) :
    (u.union a b).1.root x = (u.union a b).1.root y ↔ u.root x = u.root y ∨
      u.root x = u.root a ∧ u.root b = u.root y ∨ u.root x = u.root b ∧ u.root a = u.root y := by
  rw [root_union, root_union]
  rcases le_total (u.root a) (u.root b) with hle | hle
  · rw [max_eq_right hle, min_eq_left hle]
    split <;> split <;> grind
  · rw [max_eq_left hle, min_eq_right hle]
    split <;> split <;> grind

/-- The roots agree exactly on the equivalence that a relation generates. -/
def Tracks (u : UnionFind) (E : ℕ → ℕ → Prop) : Prop :=
  ∀ a b, u.root a = u.root b ↔ Relation.EqvGen E a b

/-- What agrees on all pairs of a relation agrees on the equivalence it generates. -/
theorem agree_of_eqvGen {α β : Type*} {r : α → α → Prop} {f : α → β} (h : ∀ a b, r a b → f a = f b)
    {a b : α} (hab : Relation.EqvGen r a b) : f a = f b := by
  induction hab with
  | rel a b hr => exact h a b hr
  | refl => rfl
  | symm _ _ _ ih => exact ih.symm
  | trans _ _ _ _ _ ih₁ ih₂ => exact ih₁.trans ih₂

theorem tracks_new {E : ℕ → ℕ → Prop} (h : ∀ a b, ¬ E a b) : new.Tracks E := by
  intro a b
  rw [root_new, root_new]
  constructor
  · rintro rfl
    exact Relation.EqvGen.refl a
  · exact agree_of_eqvGen (f := id) fun a b hE => absurd hE (h a b)

theorem Tracks.of_root {E : ℕ → ℕ → Prop} {u' : UnionFind} (h : u.Tracks E)
    (hroot : ∀ z, u'.root z = u.root z) : u'.Tracks E := by
  intro a b
  rw [hroot, hroot]
  exact h a b

theorem Tracks.congr {E E' : ℕ → ℕ → Prop} (h : u.Tracks E)
    (hE : ∀ a b, Relation.EqvGen E a b ↔ Relation.EqvGen E' a b) : u.Tracks E' :=
  fun a b => (h a b).trans (hE a b)

/-- A union adds its pair to the relation. -/
theorem Tracks.union {E : ℕ → ℕ → Prop} (h : u.Tracks E) (a b : ℕ) :
    (u.union a b).1.Tracks fun x y => E x y ∨ x = a ∧ y = b := by
  have hmono : ∀ x y, Relation.EqvGen E x y → Relation.EqvGen (fun x y => E x y ∨ x = a ∧ y = b) x y :=
    fun x y => Relation.EqvGen.mono (fun _ _ => Or.inl) x y
  have hab : Relation.EqvGen (fun x y => E x y ∨ x = a ∧ y = b) a b :=
    Relation.EqvGen.rel _ _ (Or.inr ⟨rfl, rfl⟩)
  intro x y
  constructor
  · -- a new common root joins the classes of `a` and `b`
    have hjoin : ∀ z, Relation.EqvGen (fun x y => E x y ∨ x = a ∧ y = b) z
        ((u.union a b).1.root z) := by
      intro z
      rw [root_union]
      have hz := hmono _ _ ((h z (u.root z)).1 (root_root u z).symm)
      have ha := hmono _ _ ((h a (u.root a)).1 (root_root u a).symm)
      have hb := hmono _ _ ((h b (u.root b)).1 (root_root u b).symm)
      have hroots := (ha.symm.trans _ _ _ hab).trans _ _ _ hb
      split
      case isTrue hmax =>
        apply hz.trans
        rw [hmax]
        rcases le_total (u.root a) (u.root b) with hle | hle
        · rw [max_eq_right hle, min_eq_left hle]
          exact hroots.symm
        · rw [max_eq_left hle, min_eq_right hle]
          exact hroots
      case isFalse => exact hz
    intro heq
    have hx := hjoin x
    rw [heq] at hx
    exact hx.trans _ _ _ (hjoin y).symm
  · apply agree_of_eqvGen
    rintro x y (hE | ⟨rfl, rfl⟩)
    · rw [root_union, root_union, (h x y).2 (Relation.EqvGen.rel _ _ hE)]
    · rw [root_union, root_union]
      rcases le_total (u.root x) (u.root y) with hle | hle
      · rw [max_eq_right hle, min_eq_left hle, if_pos rfl]
        exact ite_eq_right_iff.2 fun h => h.symm ▸ rfl
      · rw [max_eq_left hle, min_eq_right hle, if_pos rfl]
        exact (ite_eq_right_iff.2 fun h => h.symm ▸ rfl).symm

/-- Unite the pairs of a list, one after the other. -/
def unionAll (u : UnionFind) (pairs : List (ℕ × ℕ)) : UnionFind :=
  pairs.foldl (fun u pair => (u.union pair.1 pair.2).1) u

/-- United pairs are added to the relation. -/
theorem Tracks.unionAll {E : ℕ → ℕ → Prop} (h : u.Tracks E) (pairs : List (ℕ × ℕ)) :
    (u.unionAll pairs).Tracks fun x y => E x y ∨ (x, y) ∈ pairs := by
  induction pairs generalizing u E with
  | nil =>
    apply h.congr
    intro a b
    simp
  | cons pair pairs ih =>
    apply (ih (h.union pair.1 pair.2)).congr
    intro a b
    simp only [List.mem_cons, or_assoc, Prod.ext_iff]

/-- The equivalence that a list of pairs generates. -/
theorem tracks_unionAll (pairs : List (ℕ × ℕ)) :
    (new.unionAll pairs).Tracks fun x y => (x, y) ∈ pairs := by
  apply ((@tracks_new (fun _ _ => False) fun _ _ h => h).unionAll pairs).congr
  intro a b
  simp only [false_or]

end UnionFind

end FrankenSim.Library
