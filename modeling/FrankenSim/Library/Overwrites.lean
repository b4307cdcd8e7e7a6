import FrankenSim.Library.Keyed
import Mathlib.Data.List.Perm.Basic
import Std.Data.TreeMap.Lemmas

/-!
# Overwritten entries

A list of keyed entries inserted one after the other into a map leaves only
the last entry of each key. The list is a reordering of the entries that
survive and the entries that a later one overwrites, and the map knows exactly
the survivors.
-/
namespace FrankenSim.Library

variable {K V : Type*} [DecidableEq K]

/-- The entries whose key comes up again further on. -/
def overwritten : List (K × V) → List (K × V)
  | [] => []
  | p :: later =>
    if p.1 ∈ later.map Prod.fst then p :: overwritten later else overwritten later

/-- The last entry of each key. -/
def survivors : List (K × V) → List (K × V)
  | [] => []
  | p :: later =>
    if p.1 ∈ later.map Prod.fst then survivors later else p :: survivors later

variable {l m : List (K × V)}

theorem perm_overwritten_survivors (l : List (K × V)) :
    l.Perm (overwritten l ++ survivors l) := by
  induction l with
  | nil => rfl
  | cons p later ih =>
    unfold overwritten survivors
    split
    · exact ih.cons p
    · exact (ih.cons p).trans List.perm_middle.symm

theorem keys_survivors (k : K) : k ∈ (survivors l).map Prod.fst ↔ k ∈ l.map Prod.fst := by
  induction l with
  | nil => rfl
  | cons p later ih =>
    unfold survivors
    split
    case isTrue h =>
      rw [ih, List.map_cons, List.mem_cons]
      constructor
      · exact .inr
      · rintro (rfl | hk)
        · exact h
        · exact hk
    case isFalse => rw [List.map_cons, List.map_cons, List.mem_cons, List.mem_cons, ih]

theorem nodup_survivors (l : List (K × V)) : ((survivors l).map Prod.fst).Nodup := by
  induction l with
  | nil => exact List.nodup_nil
  | cons p later ih =>
    unfold survivors
    split
    case isTrue => exact ih
    case isFalse h =>
      rw [List.map_cons, List.nodup_cons, keys_survivors]
      exact ⟨h, ih⟩

/-- Lists with the same survivors are reorderings of each other exactly when
their overwritten entries are. -/
theorem perm_iff_overwritten (h : (survivors l).Perm (survivors m)) :
    l.Perm m ↔ (overwritten l).Perm (overwritten m) := by
  rw [(perm_overwritten_survivors l).congr_left, (perm_overwritten_survivors m).congr_right]
  constructor
  · intro hperm
    exact (List.perm_append_right_iff _).1 (hperm.trans (h.symm.append_left _))
  · intro hperm
    exact hperm.append h

theorem perm_survivors_of_lookup
    (h : ∀ k, lookup Prod.fst k (survivors l) = lookup Prod.fst k (survivors m)) :
    (survivors l).Perm (survivors m) := by
  have hsub : ∀ {l m : List (K × V)},
      (∀ k, lookup Prod.fst k (survivors l) = lookup Prod.fst k (survivors m)) →
        ∀ p ∈ survivors l, p ∈ survivors m := by
    intro l m h p hp
    have hl := lookup_of_mem (nodup_survivors l) hp
    rw [h] at hl
    exact (mem_of_lookup hl).1
  apply (List.perm_ext_iff_of_nodup (nodup_survivors l).of_map (nodup_survivors m).of_map).2
  exact fun p => ⟨hsub h p, hsub (fun k => (h k).symm) p⟩

section

variable {W : Type*} [Ord K] [Std.TransOrd K] [Std.LawfulEqOrd K]

theorem getElem?_foldl_insert (f : V → W) (k : K) (acc : Std.TreeMap K W) :
    (l.foldl (fun m p => m.insert p.1 (f p.2)) acc)[k]? =
      ((lookup Prod.fst k (survivors l)).map fun p => f p.2).or acc[k]? := by
  induction l generalizing acc with
  | nil => rfl
  | cons p later ih =>
    rw [List.foldl_cons, ih, Std.TreeMap.getElem?_insert]
    rw [survivors]
    by_cases hk : p.1 = k
    · subst hk
      rw [if_pos Std.compare_self]
      split
      case isTrue h =>
        obtain ⟨x, hx⟩ := exists_lookup ((keys_survivors _).2 h)
        simp [hx]
      case isFalse h =>
        rw [lookup_eq_none.2 (mt (keys_survivors _).1 h)]
        simp [lookup]
    · rw [if_neg (by simpa using hk)]
      split
      · rfl
      · simp [lookup, hk]

/-- Maps built from two lists hold the same entries exactly when the lists
leave the same survivors. -/
theorem perm_survivors_of_toList {f : V → W} (hf : Function.Injective f)
    (h : (l.foldl (fun m p => m.insert p.1 (f p.2)) (∅ : Std.TreeMap K W)).toList =
      (m.foldl (fun m p => m.insert p.1 (f p.2)) (∅ : Std.TreeMap K W)).toList) :
    (survivors l).Perm (survivors m) := by
  apply perm_survivors_of_lookup
  intro k
  have hk : ((lookup Prod.fst k (survivors l)).map fun p => f p.2) =
      (lookup Prod.fst k (survivors m)).map fun p => f p.2 := by
    have hmaps := (Std.TreeMap.equiv_iff_toList_eq.2 h).getElem?_eq (k := k)
    rwa [getElem?_foldl_insert, getElem?_foldl_insert, Std.TreeMap.getElem?_emptyc, Option.or_none,
      Option.or_none] at hmaps
  cases hl : lookup Prod.fst k (survivors l) with
  | none =>
    rw [hl, Option.map_none] at hk
    exact (Option.map_eq_none_iff.1 hk.symm).symm
  | some p =>
    rw [hl, Option.map_some] at hk
    obtain ⟨q, hq, hpq⟩ := Option.map_eq_some_iff.1 hk.symm
    rw [hq]
    have hp2 := hf hpq
    have hp1 := (mem_of_lookup hl).2.trans (mem_of_lookup hq).2.symm
    exact congrArg some (Prod.ext hp1 hp2.symm)

end

end FrankenSim.Library
