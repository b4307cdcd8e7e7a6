import Mathlib.Algebra.BigOperators.Group.List.Basic
import Mathlib.Data.List.Nodup
import Mathlib.Tactic

/-!
# Lists of keyed records

Records in a list are found and changed by a key. When the keys are distinct, a
change of one record moves a sum over the list by the difference of its two
weights.
-/
namespace FrankenSim.Library

variable {α κ : Type*} [DecidableEq κ] (key : α → κ)

/-- The first record with a key. -/
def lookup (k : κ) (l : List α) : Option α := l.find? fun x => key x = k

/-- Change the record with a key. -/
def modifyKey (k : κ) (f : α → α) (l : List α) : List α := l.map fun x => if key x = k then f x else x

variable {key} {l : List α} {k : κ} {f : α → α}

theorem mem_of_lookup {x : α} (h : lookup key k l = some x) : x ∈ l ∧ key x = k :=
  ⟨List.mem_of_find?_eq_some h, by simpa using List.find?_some h⟩

theorem lookup_eq_none : lookup key k l = none ↔ k ∉ l.map key := by
  simp [lookup, List.find?_eq_none]

theorem lookup_of_mem (hnodup : (l.map key).Nodup) {x : α} (hx : x ∈ l) :
    lookup key (key x) l = some x := by
  cases h : lookup key (key x) l with
  | none => exact absurd (List.mem_map_of_mem hx) (lookup_eq_none.1 h)
  | some y =>
    obtain ⟨hy, hkey⟩ := mem_of_lookup h
    rw [List.inj_on_of_nodup_map hnodup hy hx hkey]

theorem exists_lookup (hk : k ∈ l.map key) : ∃ x, lookup key k l = some x := by
  cases h : lookup key k l with
  | none => exact absurd hk (lookup_eq_none.1 h)
  | some x => exact ⟨x, rfl⟩

theorem lookup_append (l' : List α) :
    lookup key k (l ++ l') = (lookup key k l).or (lookup key k l') := List.find?_append

theorem lookup_perm {l' : List α} (hnodup : (l.map key).Nodup) (hperm : l.Perm l') :
    lookup key k l' = lookup key k l := by
  have hnodup' : (l'.map key).Nodup := (hperm.map key).nodup_iff.1 hnodup
  cases h : lookup key k l with
  | none =>
    rw [lookup_eq_none] at h ⊢
    exact fun hk => h ((hperm.map key).mem_iff.2 hk)
  | some x =>
    obtain ⟨hx, rfl⟩ := mem_of_lookup h
    exact lookup_of_mem hnodup' (hperm.mem_iff.1 hx)

theorem mem_modifyKey {y : α} :
    y ∈ modifyKey key k f l ↔ ∃ x ∈ l, y = if key x = k then f x else x := by
  simp [modifyKey, eq_comm]

/-- A change that keeps a property of every record keeps the list of it. -/
theorem map_modifyKey {β : Type*} {g : α → β} (hg : ∀ x ∈ l, key x = k → g (f x) = g x) :
    (modifyKey key k f l).map g = l.map g := by
  simp only [modifyKey, List.map_map]
  refine List.map_congr_left fun x hx => ?_
  by_cases hk : key x = k
  · simp [hk, hg x hx hk]
  · simp [hk]

theorem lookup_modifyKey (hf : ∀ x, key (f x) = key x) (j : κ) :
    lookup key j (modifyKey key k f l) =
      if j = k then (lookup key k l).map f else lookup key j l := by
  unfold lookup modifyKey
  induction l with
  | nil => simp
  | cons x l ih =>
    rw [List.map_cons, List.find?_cons, List.find?_cons, List.find?_cons, ih]
    by_cases hx : key x = k
    · by_cases hj : j = k
      · simp [hx, hj, hf]
      · have hne : key x ≠ j := fun h => hj (h.symm.trans hx)
        simp [hx, hj, hf, Ne.symm hj]
    · by_cases hj : j = k
      · simp [hx, hj]
      · simp [hx, hj]

theorem length_modifyKey : (modifyKey key k f l).length = l.length := List.length_map _

/-- Changing one record changes a sum of weights by the difference of its weights. -/
theorem sum_modifyKey {x : α} (hnodup : (l.map key).Nodup) (hx : x ∈ l) (g : α → ℕ) :
    ((modifyKey key (key x) f l).map g).sum + g x = (l.map g).sum + g (f x) := by
  unfold modifyKey
  induction l with
  | nil => cases hx
  | cons y l ih =>
    obtain ⟨hy, hnodup⟩ := List.nodup_cons.1 hnodup
    simp only [List.map_cons, List.sum_cons]
    rcases List.mem_cons.1 hx with rfl | hx
    · have hrest : (l.map fun y => if key y = key x then f y else y) = l := by
        refine (List.map_congr_left fun z hz => ?_).trans l.map_id
        have hne : key z ≠ key x := fun h => hy (h ▸ List.mem_map_of_mem hz)
        rw [if_neg hne]
        rfl
      rw [hrest, if_pos rfl]
      omega
    · have hne : key y ≠ key x := fun h => hy (h ▸ List.mem_map_of_mem hx)
      rw [if_neg hne]
      have := ih hnodup hx
      omega

/-! ### Weights of selected members -/

/-- The total weight of the members that satisfy a predicate. -/
def totalWhere (p : α → Prop) [DecidablePred p] (g : α → ℕ) (l : List α) : ℕ :=
  (l.map fun x => if p x then g x else 0).sum

section Totals

variable {p : α → Prop} [DecidablePred p] {g : α → ℕ}

@[simp] theorem totalWhere_nil : totalWhere p g [] = 0 := rfl

@[simp] theorem totalWhere_cons (x : α) :
    totalWhere p g (x :: l) = (if p x then g x else 0) + totalWhere p g l := by
  simp [totalWhere]

@[simp] theorem totalWhere_append (l' : List α) :
    totalWhere p g (l ++ l') = totalWhere p g l + totalWhere p g l' := by
  simp [totalWhere]

theorem totalWhere_perm {l' : List α} (h : l.Perm l') : totalWhere p g l = totalWhere p g l' :=
  (h.map _).sum_eq

theorem totalWhere_erase [DecidableEq α] {x : α} (hx : x ∈ l) :
    (if p x then g x else 0) + totalWhere p g (l.erase x) = totalWhere p g l :=
  List.sum_map_erase (fun x => if p x then g x else 0) hx

theorem totalWhere_eq_zero : totalWhere p g l = 0 ↔ ∀ x ∈ l, p x → g x = 0 := by
  simp [totalWhere, List.sum_eq_zero_iff]

theorem le_totalWhere {x : α} (hx : x ∈ l) (hp : p x) : g x ≤ totalWhere p g l := by
  have h := List.le_sum_of_mem (List.mem_map_of_mem (f := fun x => if p x then g x else 0) hx)
  rwa [if_pos hp] at h

theorem totalWhere_congr {l' : List α} {β : Type*} (view : α → β) (q : β → Prop) [DecidablePred q]
    (w : β → ℕ) (hq : ∀ x, p x ↔ q (view x)) (hw : ∀ x, g x = w (view x))
    (h : l'.map view = l.map view) : totalWhere p g l' = totalWhere p g l := by
  have hview : ∀ m : List α, totalWhere p g m = ((m.map view).map fun y => if q y then w y else 0).sum := by
    intro m
    simp [totalWhere, hq, hw, Function.comp_def]
  rw [hview, hview, h]

theorem totalWhere_modifyKey {x : α} (hnodup : (l.map key).Nodup) (hx : x ∈ l) :
    totalWhere p g (modifyKey key (key x) f l) + (if p x then g x else 0) =
      totalWhere p g l + if p (f x) then g (f x) else 0 :=
  sum_modifyKey hnodup hx _

end Totals

end FrankenSim.Library
