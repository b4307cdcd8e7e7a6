import FrankenSim.Library.SortedMap

/-!
# Sorted maps filled through their default values

The entry of a key is changed in place and starts from a default. A fold of such
changes leaves at every key what the changes of that key alone make of it, so
grouping by a key is filtering, and adding up by a key is a sum over a filter.
-/
namespace FrankenSim.Library

namespace SortedMap

variable {K V α : Type*} [LinearOrder K]

/-- Change the value of a key, from a default when the key is new. -/
def updateAt (m : SortedMap K V) (default : V) (k : K) (f : V → V) : SortedMap K V :=
  m.insert k (f ((m.get? k).getD default))

theorem getD_updateAt (m : SortedMap K V) (default : V) (j k : K) (f : V → V) :
    ((m.updateAt default k f).get? j).getD default =
      if j = k then f ((m.get? j).getD default) else (m.get? j).getD default := by
  rw [updateAt, get?_insert]
  split_ifs with h
  · rw [Option.getD_some, h]
  · rfl

theorem getD_foldl_updateAt (default : V) (key : α → K) (f : α → V → V) (l : List α)
    (m : SortedMap K V) (j : K) :
    ((l.foldl (fun m a => m.updateAt default (key a) (f a)) m).get? j).getD default =
      (l.filter fun a => key a = j).foldl (fun v a => f a v) ((m.get? j).getD default) := by
  induction l generalizing m with
  | nil => rfl
  | cons a l ih =>
    rw [List.foldl_cons, ih, getD_updateAt]
    by_cases h : key a = j
    · rw [List.filter_cons_of_pos (by simpa using h), List.foldl_cons, if_pos h.symm]
    · rw [List.filter_cons_of_neg (by simpa using h), if_neg (Ne.symm h)]

/-- The keys of the changes are the keys of the map. -/
theorem isSome_foldl_updateAt (default : V) (key : α → K) (f : α → V → V) (l : List α)
    (m : SortedMap K V) (j : K) :
    ((l.foldl (fun m a => m.updateAt default (key a) (f a)) m).get? j).isSome ↔
      (m.get? j).isSome ∨ ∃ a ∈ l, key a = j := by
  induction l generalizing m with
  | nil => simp
  | cons a l ih =>
    rw [List.foldl_cons, ih, updateAt, get?_insert]
    by_cases h : j = key a
    · simp [h]
    · simp [h, Ne.symm h]

/-- The elements of a list by their key, each group in the order of the list. -/
def groupBy (key : α → K) (l : List α) : SortedMap K (List α) :=
  l.foldl (fun m a => m.updateAt [] (key a) (· ++ [a])) empty

theorem getD_groupBy (key : α → K) (l : List α) (k : K) :
    ((groupBy key l).get? k).getD [] = l.filter fun a => key a = k := by
  have happend : ∀ l acc : List α, l.foldl (fun v a => v ++ [a]) acc = acc ++ l := by
    intro l
    induction l with
    | nil => simp
    | cons a l ih =>
      intro acc
      rw [List.foldl_cons, ih, List.append_assoc, List.singleton_append]
  rw [groupBy, getD_foldl_updateAt, happend]
  rfl

/-- The values of a list of keyed values added up by key. -/
def totals [AddCommMonoid V] (l : List (K × V)) : SortedMap K V :=
  l.foldl (fun m e => m.updateAt 0 e.1 (· + e.2)) empty

theorem getD_totals [AddCommMonoid V] (l : List (K × V)) (k : K) :
    ((totals l).get? k).getD 0 = ((l.filter fun e => e.1 = k).map Prod.snd).sum := by
  have hsum : ∀ (l : List (K × V)) (acc : V),
      l.foldl (fun v e => v + e.2) acc = acc + (l.map Prod.snd).sum := by
    intro l
    induction l with
    | nil => simp
    | cons e l ih =>
      intro acc
      rw [List.foldl_cons, ih, List.map_cons, List.sum_cons, add_assoc]
  rw [totals, getD_foldl_updateAt, hsum]
  exact zero_add _

/-- No entry differs from the default exactly when every key reads as the default. -/
theorem find?_ne_eq_none [DecidableEq V] (m : SortedMap K V) (default : V) :
    (m.entries.find? fun e => e.2 ≠ default) = none ↔ ∀ k, (m.get? k).getD default = default := by
  rw [List.find?_eq_none]
  constructor
  · intro h k
    cases hk : m.get? k with
    | none => rfl
    | some v => simpa using h (k, v) (get?_eq_some.1 hk)
  · rintro h ⟨k, v⟩ hmem
    have hk := h k
    rw [get?_eq_some.2 hmem, Option.getD_some] at hk
    simpa using hk

end SortedMap

end FrankenSim.Library
