import Mathlib.Data.List.Basic
import Mathlib.Order.Lattice

/-!
# Neighbours of one key added up

A pass over keyed values that adds the values of neighbouring equal keys, from
the left and without regrouping. On a list sorted by the key it leaves every key
once, and it works on each part of the list by itself when no key lies in two
parts.
-/
namespace FrankenSim.Library

variable {V : Type*} [Add V]

/-- The values added up from the left, starting with the first. -/
def sumFirst : List V → Option V
  | [] => none
  | v :: later => some (later.foldl (· + ·) v)

section Equality

variable {K : Type*} [DecidableEq K]

/-- The values that follow a run of equal keys, the run still growing. -/
def accumulateFrom (run : K × V) : List (K × V) → List (K × V)
  | [] => [run]
  | p :: later =>
    if p.1 = run.1 then accumulateFrom (run.1, run.2 + p.2) later
    else run :: accumulateFrom p later

/-- One entry for each run of equal keys, its values added from the left. -/
def accumulate : List (K × V) → List (K × V)
  | [] => []
  | p :: later => accumulateFrom p later

theorem mem_keys_accumulateFrom (run : K × V) (l : List (K × V)) (k : K) :
    k ∈ (accumulateFrom run l).map Prod.fst ↔ k = run.1 ∨ k ∈ l.map Prod.fst := by
  induction l generalizing run with
  | nil => simp [accumulateFrom]
  | cons p later ih =>
    unfold accumulateFrom
    split
    case isTrue h => rw [ih, List.map_cons, List.mem_cons, h]; tauto
    case isFalse => rw [List.map_cons, List.mem_cons, ih, List.map_cons, List.mem_cons]

theorem mem_keys_accumulate (l : List (K × V)) (k : K) :
    k ∈ (accumulate l).map Prod.fst ↔ k ∈ l.map Prod.fst := by
  cases l with
  | nil => rfl
  | cons p later => rw [accumulate, mem_keys_accumulateFrom, List.map_cons, List.mem_cons]

theorem accumulateFrom_append {run : K × V} {l m : List (K × V)} (hrun : ∀ q ∈ m, run.1 ≠ q.1)
    (h : ∀ p ∈ l, ∀ q ∈ m, p.1 ≠ q.1) :
    accumulateFrom run (l ++ m) = accumulateFrom run l ++ accumulate m := by
  induction l generalizing run with
  | nil =>
    cases m with
    | nil => rfl
    | cons q m =>
      rw [List.nil_append, accumulateFrom, accumulateFrom, if_neg (hrun q List.mem_cons_self).symm]
      rfl
  | cons p l ih =>
    rw [List.cons_append, accumulateFrom, accumulateFrom]
    split
    · exact ih hrun fun p hp => h p (List.mem_cons_of_mem _ hp)
    · rw [List.cons_append, ih (h p List.mem_cons_self) fun p hp => h p (List.mem_cons_of_mem _ hp)]

/-- Two parts without a common key are accumulated one after the other. -/
theorem accumulate_append {l m : List (K × V)} (h : ∀ p ∈ l, ∀ q ∈ m, p.1 ≠ q.1) :
    accumulate (l ++ m) = accumulate l ++ accumulate m := by
  cases l with
  | nil => rfl
  | cons p l =>
    exact accumulateFrom_append (h p List.mem_cons_self)
      fun p hp => h p (List.mem_cons_of_mem _ hp)

theorem accumulate_flatMap {ι : Type*} {parts : ι → List (K × V)} {is : List ι}
    (h : is.Pairwise fun i j => ∀ p ∈ parts i, ∀ q ∈ parts j, p.1 ≠ q.1) :
    accumulate (is.flatMap parts) = is.flatMap fun i => accumulate (parts i) := by
  induction is with
  | nil => rfl
  | cons i is ih =>
    rw [List.pairwise_cons] at h
    rw [List.flatMap_cons, List.flatMap_cons, accumulate_append, ih h.2]
    intro p hp q hq
    obtain ⟨j, hj, hq⟩ := List.mem_flatMap.mp hq
    exact h.1 j hj p hp q hq

end Equality

section Sorted

variable {K : Type*} [LinearOrder K]

theorem keys_accumulateFrom_lt {run : K × V} {l : List (K × V)}
    (h : (run :: l).Pairwise fun p q => p.1 ≤ q.1) :
    (accumulateFrom run l).Pairwise fun p q => p.1 < q.1 := by
  induction l generalizing run with
  | nil => exact List.pairwise_singleton _ _
  | cons p later ih =>
    rw [List.pairwise_cons] at h
    unfold accumulateFrom
    split
    case isTrue =>
      apply ih
      rw [List.pairwise_cons]
      exact ⟨fun q hq => h.1 q (List.mem_cons_of_mem _ hq), (List.pairwise_cons.mp h.2).2⟩
    case isFalse hne =>
      rw [List.pairwise_cons]
      refine ⟨?_, ih h.2⟩
      intro q hq
      have hlt : run.1 < p.1 := lt_of_le_of_ne (h.1 p List.mem_cons_self) (Ne.symm hne)
      have hkey := (mem_keys_accumulateFrom p later q.1).mp (List.mem_map_of_mem hq)
      obtain hkey | hkey := hkey
      · rw [hkey]
        exact hlt
      · obtain ⟨p', hp', hkey⟩ := List.mem_map.mp hkey
        rw [← hkey]
        exact lt_of_lt_of_le hlt ((List.pairwise_cons.mp h.2).1 p' hp')

/-- In a sorted list every key comes out once, in ascending order. -/
theorem keys_accumulate_lt {l : List (K × V)} (h : l.Pairwise fun p q => p.1 ≤ q.1) :
    (accumulate l).Pairwise fun p q => p.1 < q.1 := by
  cases l with
  | nil => exact List.Pairwise.nil
  | cons p later => exact keys_accumulateFrom_lt h

/-- A key comes out with the sum of its values, added up from the left. -/
theorem mem_accumulateFrom {run : K × V} {l : List (K × V)}
    (h : (run :: l).Pairwise fun p q => p.1 ≤ q.1) {k : K} {v : V} :
    (k, v) ∈ accumulateFrom run l ↔
      sumFirst (((run :: l).filter fun p => p.1 = k).map Prod.snd) = some v := by
  induction l generalizing run with
  | nil =>
    rw [accumulateFrom, List.mem_singleton, Prod.ext_iff]
    by_cases hk : run.1 = k
    · simp [hk, sumFirst, eq_comm]
    · simp [hk, sumFirst, Ne.symm hk]
  | cons p later ih =>
    obtain ⟨hrun, hrest⟩ := List.pairwise_cons.1 h
    obtain ⟨hp, hlater⟩ := List.pairwise_cons.1 hrest
    unfold accumulateFrom
    split
    case isTrue heq =>
      have hmerged : ((run.1, run.2 + p.2) :: later).Pairwise fun p q => p.1 ≤ q.1 :=
        List.pairwise_cons.2 ⟨fun q hq => hrun q (List.mem_cons_of_mem _ hq), hlater⟩
      rw [ih hmerged]
      by_cases hk : run.1 = k
      · rw [List.filter_cons_of_pos (by simpa using hk), List.filter_cons_of_pos (by simpa using hk),
          List.filter_cons_of_pos (by simpa using heq.trans hk)]
        rfl
      · rw [List.filter_cons_of_neg (by simpa using hk), List.filter_cons_of_neg (by simpa using hk),
          List.filter_cons_of_neg (by simpa [heq] using hk)]
    case isFalse hne =>
      have hlt : run.1 < p.1 := lt_of_le_of_ne (hrun p List.mem_cons_self) (Ne.symm hne)
      rw [List.mem_cons, ih hrest, Prod.ext_iff]
      by_cases hk : run.1 = k
      · -- no later key is as small as the run's
        have hnone : (p :: later).filter (fun q => q.1 = k) = [] := by
          apply List.filter_eq_nil_iff.2
          intro q hq
          rcases List.mem_cons.1 hq with rfl | hmem
          · simpa [← hk] using hne
          · have hqlt : run.1 < q.1 := lt_of_lt_of_le hlt (hp q hmem)
            simpa [← hk] using ne_of_gt hqlt
        have hkept : (run :: p :: later).filter (fun q => q.1 = k) = [run] := by
          rw [List.filter_cons_of_pos (by simpa using hk), hnone]
        rw [hnone, hkept]
        simp [sumFirst, hk, eq_comm]
      · have hkept : (run :: p :: later).filter (fun q => q.1 = k) =
            (p :: later).filter fun q => q.1 = k := List.filter_cons_of_neg (by simpa using hk)
        rw [hkept]
        simp [Ne.symm hk]

theorem mem_accumulate {l : List (K × V)} (h : l.Pairwise fun p q => p.1 ≤ q.1) {k : K} {v : V} :
    (k, v) ∈ accumulate l ↔ sumFirst ((l.filter fun p => p.1 = k).map Prod.snd) = some v := by
  cases l with
  | nil => simp [accumulate, sumFirst]
  | cons p later => exact mem_accumulateFrom h

end Sorted

end FrankenSim.Library
