import Mathlib.Data.List.Sort
import Mathlib.Order.Monotone.Defs

/-!
# Stable sorting by a key

A stable sort is determined by what it keeps: the result is sorted by the key,
and the elements of each key stand in the order they came in. Sorting the parts
of a list one by one therefore sorts the whole list, as soon as the parts are cut
along the order of the keys.
-/
namespace FrankenSim.Library

variable {α K : Type*} [LinearOrder K] {key : α → K}

/-- Sort by a key, leaving elements of one key in their order. -/
def sortByKey (key : α → K) (l : List α) : List α :=
  l.insertionSort fun a b => key a ≤ key b

theorem sortByKey_perm (key : α → K) (l : List α) : (sortByKey key l).Perm l :=
  List.perm_insertionSort _ l

@[simp] theorem mem_sortByKey {l : List α} {a : α} : a ∈ sortByKey key l ↔ a ∈ l :=
  List.mem_insertionSort _

@[simp] theorem length_sortByKey (l : List α) : (sortByKey key l).length = l.length :=
  (sortByKey_perm key l).length_eq

theorem sorted_sortByKey (key : α → K) (l : List α) :
    (sortByKey key l).Pairwise fun a b => key a ≤ key b := by
  have : Std.Total fun a b : α => key a ≤ key b := ⟨fun a b => le_total (key a) (key b)⟩
  have : IsTrans α fun a b => key a ≤ key b := ⟨fun _ _ _ => le_trans⟩
  exact List.pairwise_insertionSort _ l

theorem filter_sortByKey (l : List α) (k : K) :
    (sortByKey key l).filter (key · = k) = l.filter (key · = k) := by
  have : Std.Total fun a b : α => key a ≤ key b := ⟨fun a b => le_total (key a) (key b)⟩
  have : IsTrans α fun a b => key a ≤ key b := ⟨fun _ _ _ => le_trans⟩
  have hkept : (l.filter (key · = k)).Sublist (sortByKey key l) := by
    apply List.sublist_insertionSort _ List.filter_sublist
    apply List.pairwise_of_forall_mem_list
    intro a ha b hb
    simp only [List.mem_filter, decide_eq_true_eq] at ha hb
    rw [ha.2, hb.2]
  have hinner := hkept.filter (key · = k)
  rw [List.filter_filter] at hinner
  simp only [Bool.and_self] at hinner
  apply (hinner.eq_of_length _).symm
  exact ((sortByKey_perm key l).filter _).length_eq.symm

/-- Elements of one key keep their order. -/
theorem pairwise_sortByKey {R : α → α → Prop} {l : List α} (h : l.Pairwise R) :
    (sortByKey key l).Pairwise fun a b => key a ≤ key b ∧ (key a = key b → R a b) := by
  apply (sorted_sortByKey key l).and
  rw [List.pairwise_iff_forall_sublist]
  intro a b hab heq
  have hkept := hab.filter (key · = key b)
  rw [filter_sortByKey] at hkept
  have hpair : [a, b].filter (key · = key b) = [a, b] := by simp [heq]
  rw [hpair] at hkept
  exact List.pairwise_iff_forall_sublist.1 h (hkept.trans List.filter_sublist)

theorem sorted_ext : ∀ {l m : List α}, (l.Pairwise fun a b => key a ≤ key b) →
    (m.Pairwise fun a b => key a ≤ key b) →
    (∀ k, l.filter (key · = k) = m.filter (key · = k)) → l = m
  | [], [], _, _, _ => rfl
  | [], b :: m, _, _, h => by simpa using h (key b)
  | a :: l, [], _, _, h => by simpa using h (key a)
  | a :: l, b :: m, hl, hm, h => by
    rw [List.pairwise_cons] at hl hm
    have hab : key a ≤ key b := by
      have hb : b ∈ (a :: l).filter (key · = key b) := by rw [h]; simp
      obtain rfl | hb := List.mem_cons.mp (List.mem_filter.mp hb).1
      · exact le_rfl
      · exact hl.1 b hb
    have hba : key b ≤ key a := by
      have ha : a ∈ (b :: m).filter (key · = key a) := by rw [← h]; simp
      obtain rfl | ha := List.mem_cons.mp (List.mem_filter.mp ha).1
      · exact le_rfl
      · exact hm.1 a ha
    have hkey := le_antisymm hab hba
    have hhead := h (key a)
    simp only [List.filter_cons, hkey, decide_true, if_true] at hhead
    obtain rfl := (List.cons.inj hhead).1
    rw [sorted_ext hl.2 hm.2]
    intro k
    have hk := h k
    rw [List.filter_cons, List.filter_cons] at hk
    split at hk
    · exact (List.cons.inj hk).2
    · exact hk

theorem filter_parts (part : K → ℕ) (l : List α) (k : K) (t : ℕ) :
    ((List.range t).flatMap fun τ => (l.filter fun a => part (key a) = τ).filter (key · = k)) =
      if part k < t then l.filter (key · = k) else [] := by
  have hpart (τ : ℕ) : (l.filter fun a => part (key a) = τ).filter (key · = k) =
      if part k = τ then l.filter (key · = k) else [] := by
    rw [List.filter_filter]
    split
    case isTrue h =>
      apply List.filter_congr
      intro a _
      by_cases ha : key a = k <;> simp [ha, h]
    case isFalse h =>
      rw [List.filter_eq_nil_iff]
      intro a _
      simp only [Bool.and_eq_true, decide_eq_true_eq, not_and]
      rintro rfl
      exact h
  simp only [hpart]
  induction t with
  | zero => rfl
  | succ t ih =>
    rw [List.range_succ, List.flatMap_append, ih, List.flatMap_singleton]
    by_cases h : part k = t
    · simp [h]
    · rw [if_neg h, List.append_nil]
      congr 1
      simp only [eq_iff_iff]
      omega

/-- A sorted list is the concatenation of its parts, when the parts follow the keys. -/
theorem parts_of_sorted {part : K → ℕ} (hpart : Monotone part) {t : ℕ} {l : List α}
    (hl : l.Pairwise fun a b => key a ≤ key b) (ht : ∀ a ∈ l, part (key a) < t) :
    ((List.range t).flatMap fun τ => l.filter fun a => part (key a) = τ) = l := by
  apply @sorted_ext _ _ _ key _ _ _ hl
  · intro k
    rw [List.filter_flatMap, filter_parts]
    split
    case isTrue => rfl
    case isFalse h =>
      symm
      rw [List.filter_eq_nil_iff]
      intro a ha
      rw [decide_eq_true_eq]
      rintro rfl
      exact h (ht a ha)
  · rw [List.pairwise_flatMap]
    constructor
    · intro τ _
      exact hl.filter _
    · apply List.pairwise_lt_range.imp
      intro τ τ' hlt a ha b hb
      rw [List.mem_filter, decide_eq_true_eq] at ha hb
      by_contra hle
      have := hpart (not_le.mp hle).le
      omega

theorem sortByKey_filter (p : α → Bool) (l : List α) :
    sortByKey key (l.filter p) = (sortByKey key l).filter p := by
  apply sorted_ext (sorted_sortByKey key _) ((sorted_sortByKey key l).filter p)
  intro k
  rw [filter_sortByKey, List.filter_filter, List.filter_filter]
  simp only [Bool.and_comm (decide _)]
  rw [← List.filter_filter, ← List.filter_filter, filter_sortByKey]

/-- Sorting the parts in turn sorts the whole, when the parts follow the keys. -/
theorem sortByKey_parts {part : K → ℕ} (hpart : Monotone part) {t : ℕ} {l : List α}
    (ht : ∀ a ∈ l, part (key a) < t) :
    ((List.range t).flatMap fun τ => sortByKey key (l.filter fun a => part (key a) = τ)) =
      sortByKey key l := by
  simp only [sortByKey_filter]
  apply parts_of_sorted hpart (sorted_sortByKey key l)
  intro a ha
  exact ht a (mem_sortByKey.mp ha)

end FrankenSim.Library
