import FrankenSim.Tropical.Karp
import Mathlib.Data.List.Rotate

/-!
# The enumeration of simple cycles

Every cycle is closed exactly once, on the stack that starts with its smallest node.
-/
namespace FrankenSim.Tropical

open Library

variable {K : Type} [Field K] [LinearOrder K] {matrix : List (List (WithBot K))}

/-- The cycles that are closed above a stack, with their weights. -/
def closings (matrix : List (List (WithBot K))) (start : ℕ) :
    ℕ → ℕ → K → List ℕ → List (List ℕ × K)
  | 0, _, _, _ => []
  | fuel + 1, u, weight, stack =>
    (List.range matrix.length).flatMap fun v =>
      if entry matrix u v = ⊥ then []
      else if v = start then [(stack, weight + (entry matrix u v).unbotD 0)]
      else if start < v ∧ v ∉ stack then
        closings matrix start fuel v (weight + (entry matrix u v).unbotD 0) (stack ++ [v])
      else []

/-- The cycles of the whole enumeration. -/
def allClosings (matrix : List (List (WithBot K))) : List (List ℕ × K) :=
  (List.range matrix.length).flatMap fun start =>
    closings matrix start matrix.length start 0 [start]

theorem foldl_foldl {A B S : Type} (f : S → B → S) (g : A → List B) (l : List A) (s : S) :
    l.foldl (fun s a => (g a).foldl f s) s = (l.flatMap g).foldl f s := by
  induction l generalizing s with
  | nil => rfl
  | cons a l ih => rw [List.foldl_cons, ih, List.flatMap_cons, List.foldl_append]

/-- The search hands every closed cycle on, whatever is done with it. -/
theorem dfsCycles_eq {S : Type} (close : S → List ℕ → K → S) (start fuel u : ℕ) (weight : K)
    (stack : List ℕ) (s : S) :
    dfsCycles close matrix start fuel u weight stack (fun v => decide (v ∈ stack)) s =
      (closings matrix start fuel u weight stack).foldl (fun s c => close s c.1 c.2) s := by
  induction fuel generalizing u weight stack s with
  | zero => rfl
  | succ fuel ih =>
    rw [dfsCycles, closings, ← foldl_foldl]
    congr 1
    funext s v
    have hmark : Function.update (fun v => decide (v ∈ stack)) v true =
        fun x => decide (x ∈ stack ++ [v]) := by
      funext x
      by_cases hx : x = v
      · subst hx
        simp
      · simp [hx]
    dsimp only
    rw [hmark, ih]
    split_ifs
    all_goals simp_all

theorem enumerateCycles_eq {S : Type} (close : S → List ℕ → K → S) (s : S) :
    enumerateCycles close matrix s =
      (allClosings matrix).foldl (fun s c => close s c.1 c.2) s := by
  rw [enumerateCycles, allClosings, ← foldl_foldl]
  congr 1
  funext s start
  rw [← dfsCycles_eq]
  congr 1
  funext x
  by_cases hx : x = start
  · subst hx
    simp
  · simp [hx]

section Contents

/-- What is closed above a stack: the cycles that go on from it over larger nodes. -/
theorem mem_closings (h : ∀ row ∈ matrix, row.length = matrix.length) {start fuel u : ℕ}
    {weight : K} {stack p : List ℕ} (hstack : stack = p ++ [u]) (hnodup : stack.Nodup)
    (hlt : ∀ v ∈ stack, v < matrix.length) (hstart : start ∈ stack)
    (hfuel : matrix.length + 1 ≤ fuel + stack.length) (c : List ℕ) (total : K) :
    (c, total) ∈ closings matrix start fuel u weight stack ↔ ∃ q, c = stack ++ q ∧ c.Nodup ∧
      (∀ v ∈ q, start < v) ∧ ∃ x : K, walkWeight (entry matrix) (u :: q ++ [start]) = x ∧
        total = weight + x := by
  induction fuel generalizing u weight stack p with
  | zero =>
    have hsub : stack ⊆ List.range matrix.length := fun v hv => List.mem_range.2 (hlt v hv)
    have hle := (List.subperm_of_subset hnodup hsub).length_le
    rw [List.length_range] at hle
    omega
  | succ fuel ih =>
    have hrec : ∀ v, v < matrix.length → v ∉ stack → ∀ weight, (c, total) ∈
        closings matrix start fuel v weight (stack ++ [v]) ↔ ∃ q, c = stack ++ [v] ++ q ∧ c.Nodup ∧
          (∀ v ∈ q, start < v) ∧ ∃ x : K, walkWeight (entry matrix) (v :: q ++ [start]) = x ∧
            total = weight + x := by
      intro v hv hfresh weight
      apply ih (p := stack) rfl
      · rw [List.nodup_append]
        refine ⟨hnodup, List.nodup_singleton v, ?_⟩
        rintro a ha b hb rfl
        exact hfresh (List.mem_singleton.1 hb ▸ ha)
      · intro a ha
        rcases List.mem_append.1 ha with ha | ha
        · exact hlt a ha
        · rwa [List.mem_singleton.1 ha]
      · exact List.mem_append_left _ hstart
      · rw [List.length_append, List.length_singleton]
        omega
    rw [closings, List.mem_flatMap]
    constructor
    · rintro ⟨v, hv, hmem⟩
      rw [List.mem_range] at hv
      split_ifs at hmem with hbot heq hnext
      · exact absurd hmem List.not_mem_nil
      · obtain ⟨w, hw⟩ := WithBot.ne_bot_iff_exists.1 hbot
        rw [← hw, List.mem_singleton, WithBot.unbotD_coe, Prod.mk.injEq] at hmem
        obtain ⟨rfl, rfl⟩ := hmem
        refine ⟨[], by simp, hnodup, by simp, w, ?_, rfl⟩
        simp [walkWeight, hw, ← heq]
      · obtain ⟨w, hw⟩ := WithBot.ne_bot_iff_exists.1 hbot
        rw [← hw, WithBot.unbotD_coe] at hmem
        obtain ⟨q, rfl, hc, hlarger, x, hx, rfl⟩ := (hrec v hv hnext.2 _).1 hmem
        refine ⟨v :: q, by simp, hc, List.forall_mem_cons.2 ⟨hnext.1, hlarger⟩, w + x, ?_, ?_⟩
        · rw [WithBot.coe_add, ← hx, hw]
          rfl
        · rw [add_assoc]
      · exact absurd hmem List.not_mem_nil
    · rintro ⟨q, hc, hcNodup, hlarger, x, hx, htotal⟩
      cases q with
      | nil =>
        have hw : entry matrix u start = x := by simpa [walkWeight] using hx
        refine ⟨start, List.mem_range.2 (hlt start hstart), ?_⟩
        rw [hw, if_neg WithBot.coe_ne_bot, if_pos rfl, WithBot.unbotD_coe, List.mem_singleton, hc,
          List.append_nil, htotal]
      | cons v q =>
        change entry matrix u v + walkWeight (entry matrix) (v :: q ++ [start]) = x at hx
        have hfinite : entry matrix u v + walkWeight (entry matrix) (v :: q ++ [start]) ≠ ⊥ := by
          rw [hx]
          exact WithBot.coe_ne_bot
        obtain ⟨hedge, hrest⟩ := WithBot.add_ne_bot.1 hfinite
        obtain ⟨w, hw⟩ := WithBot.ne_bot_iff_exists.1 hedge
        obtain ⟨y, hy⟩ := WithBot.ne_bot_iff_exists.1 hrest
        have hv := (entry_ne_bot h hedge).2
        have hlargerV := hlarger v List.mem_cons_self
        have hfresh : v ∉ stack := by
          intro hmem
          rw [hc, List.nodup_append] at hcNodup
          exact hcNodup.2.2 v hmem v List.mem_cons_self rfl
        refine ⟨v, List.mem_range.2 hv, ?_⟩
        rw [if_neg hedge, if_neg (by omega), if_pos ⟨hlargerV, hfresh⟩, ← hw, WithBot.unbotD_coe,
          hrec v hv hfresh]
        refine ⟨q, by simp [hc], hcNodup, fun a ha => hlarger a (List.mem_cons_of_mem _ ha), y,
          hy.symm, ?_⟩
        rw [← hw, ← hy, ← WithBot.coe_add, WithBot.coe_inj] at hx
        rw [htotal, ← hx, add_assoc]

theorem closings_append {start fuel u : ℕ} {weight : K} {stack c : List ℕ} {total : K}
    (hmem : (c, total) ∈ closings matrix start fuel u weight stack) : ∃ q, c = stack ++ q := by
  induction fuel generalizing u weight stack with
  | zero => exact absurd hmem List.not_mem_nil
  | succ fuel ih =>
    rw [closings, List.mem_flatMap] at hmem
    obtain ⟨v, -, hmem⟩ := hmem
    split_ifs at hmem
    · exact absurd hmem List.not_mem_nil
    · rw [List.mem_singleton, Prod.mk.injEq] at hmem
      exact ⟨[], by rw [hmem.1, List.append_nil]⟩
    · obtain ⟨q, rfl⟩ := ih hmem
      exact ⟨v :: q, by simp⟩
    · exact absurd hmem List.not_mem_nil

/-- No cycle is closed twice. -/
theorem nodup_closings (start fuel u : ℕ) (weight : K) (stack : List ℕ) :
    ((closings matrix start fuel u weight stack).map Prod.fst).Nodup := by
  induction fuel generalizing u weight stack with
  | zero => exact List.nodup_nil
  | succ fuel ih =>
    rw [closings, List.map_flatMap, List.nodup_flatMap]
    constructor
    · intro v _
      split_ifs
      · exact List.nodup_nil
      · exact List.nodup_singleton stack
      · exact ih v _ _
      · exact List.nodup_nil
    · -- the node behind the stack tells the branches apart
      have hnext : ∀ v c, c ∈ List.map Prod.fst (if entry matrix u v = ⊥ then []
          else if v = start then [(stack, weight + (entry matrix u v).unbotD 0)]
          else if start < v ∧ v ∉ stack then
            closings matrix start fuel v (weight + (entry matrix u v).unbotD 0) (stack ++ [v])
          else []) → (v = start ∧ c = stack) ∨ v ≠ start ∧ ∃ q, c = stack ++ v :: q := by
        intro v c hc
        obtain ⟨⟨c, total⟩, hmem, rfl⟩ := List.mem_map.1 hc
        split_ifs at hmem with hbot heq hok
        · exact absurd hmem List.not_mem_nil
        · rw [List.mem_singleton, Prod.mk.injEq] at hmem
          exact Or.inl ⟨heq, hmem.1⟩
        · obtain ⟨q, rfl⟩ := closings_append hmem
          exact Or.inr ⟨heq, q, by simp⟩
        · exact absurd hmem List.not_mem_nil
      apply List.nodup_range.imp
      intro v v' hne c hc hc'
      rcases hnext v c hc with ⟨rfl, rfl⟩ | ⟨-, q, rfl⟩
      · rcases hnext v' c hc' with ⟨rfl, -⟩ | ⟨-, q', heq⟩
        · exact hne rfl
        · simp at heq
      · rcases hnext v' _ hc' with ⟨-, heq⟩ | ⟨-, q', heq⟩
        · simp at heq
        · rw [List.append_cancel_left_eq, List.cons.injEq] at heq
          exact hne heq.1

/-- A cycle that is written from its smallest node on. -/
def FromSmallest (c : List ℕ) : Prop := ∃ start q, c = start :: q ∧ ∀ v ∈ q, start < v

theorem mem_allClosings (h : ∀ row ∈ matrix, row.length = matrix.length) (c : List ℕ) (total : K) :
    (c, total) ∈ allClosings matrix ↔
      c.Nodup ∧ FromSmallest c ∧ cycleWeight (entry matrix) c = total := by
  rw [allClosings, List.mem_flatMap]
  constructor
  · rintro ⟨start, hstart, hmem⟩
    rw [List.mem_range] at hstart
    obtain ⟨q, rfl, hnodup, hlarger, x, hx, rfl⟩ := (mem_closings h (p := []) rfl
      (List.nodup_singleton start) (by simpa using hstart) (List.mem_singleton_self start)
      (by simp) c total).1 hmem
    rw [zero_add]
    exact ⟨hnodup, ⟨start, q, rfl, hlarger⟩, hx⟩
  · rintro ⟨hnodup, ⟨start, q, rfl, hlarger⟩, hweight⟩
    have hfinite : cycleWeight (entry matrix) (start :: q) ≠ ⊥ := by
      rw [hweight]
      exact WithBot.coe_ne_bot
    have hstart : start < matrix.length :=
      Finset.mem_range.1 ((bestWalks h).cycle_mem hfinite start List.mem_cons_self)
    refine ⟨start, List.mem_range.2 hstart, ?_⟩
    apply (mem_closings h (p := []) rfl (List.nodup_singleton start) (by simpa using hstart)
      (List.mem_singleton_self start) (by simp) _ total).2
    exact ⟨q, rfl, hnodup, hlarger, total, hweight, (zero_add total).symm⟩

theorem nodup_allClosings : ((allClosings matrix).map Prod.fst).Nodup := by
  rw [allClosings, List.map_flatMap, List.nodup_flatMap]
  constructor
  · intro start _
    exact nodup_closings _ _ _ _ _
  · apply List.nodup_range.imp
    intro start start' hne c hc hc'
    obtain ⟨⟨c, total⟩, hmem, rfl⟩ := List.mem_map.1 hc
    obtain ⟨⟨c', total'⟩, hmem', heq⟩ := List.mem_map.1 hc'
    obtain ⟨q, rfl⟩ := closings_append hmem
    obtain ⟨q', rfl⟩ := closings_append hmem'
    exact hne (List.cons.inj heq).1.symm

end Contents

section Rotations

/-- Every cycle can be written from its smallest node on. -/
theorem exists_fromSmallest {c : List ℕ} (hnodup : c.Nodup) (hne : c ≠ []) :
    ∃ a b, c = a ++ b ∧ FromSmallest (b ++ a) := by
  obtain ⟨u, hu⟩ := List.exists_mem_of_ne_nil c hne
  obtain ⟨m, hm, hmin⟩ := c.toFinset.exists_min_image id ⟨u, List.mem_toFinset.2 hu⟩
  obtain ⟨a, b, rfl⟩ := List.append_of_mem (List.mem_toFinset.1 hm)
  refine ⟨a, m :: b, rfl, m, b ++ a, rfl, ?_⟩
  intro v hv
  have hmem : v ∈ a ++ m :: b := by
    rw [List.mem_append] at hv ⊢
    exact hv.elim (fun hb => Or.inr (List.mem_cons_of_mem m hb)) Or.inl
  have hle : m ≤ v := hmin v (List.mem_toFinset.2 hmem)
  have hother : m ∉ b ++ a := (List.nodup_cons.1 (List.nodup_append_comm.1 hnodup)).1
  exact lt_of_le_of_ne hle fun heq => hother (heq ▸ hv)

/-- In only one way. -/
theorem fromSmallest_unique {c c' : List ℕ} (hc : FromSmallest c) (hc' : FromSmallest c')
    (hrotated : c ~r c') : c = c' := by
  obtain ⟨s, q, rfl, hlarger⟩ := hc
  obtain ⟨s', q', rfl, hlarger'⟩ := hc'
  have hsame : s = s' := by
    have hmem := hrotated.mem_iff.2 (List.mem_cons_self (a := s') (l := q'))
    have hmem' := hrotated.mem_iff.1 (List.mem_cons_self (a := s) (l := q))
    rw [List.mem_cons] at hmem hmem'
    rcases hmem with heq | hlt
    · exact heq.symm
    · rcases hmem' with heq | hlt'
      · exact heq
      · have := hlarger s' hlt
        have := hlarger' s hlt'
        omega
  subst hsame
  obtain ⟨n, hn, heq⟩ := List.isRotated_iff_mod.1 hrotated
  rcases Nat.lt_or_ge n (s :: q).length with hlt | hge
  · have hhead := List.head?_rotate hlt
    rw [heq, List.head?_cons] at hhead
    cases n with
    | zero => rwa [List.rotate_zero] at heq
    | succ n =>
      rw [List.getElem?_cons_succ] at hhead
      exact absurd (hlarger s (List.mem_of_getElem? hhead.symm)) (lt_irrefl s)
  · rw [le_antisymm hn hge, List.rotate_length] at heq
    exact heq

end Rotations

section BruteForce

theorem visitedCycles_eq : visitedCycles matrix = (allClosings matrix).map Prod.fst := by
  rw [visitedCycles, enumerateCycles_eq]
  generalize allClosings matrix = l
  induction l using List.reverseRecOn with
  | nil => rfl
  | append_singleton l c ih =>
    rw [List.foldl_append, ih, List.map_append]
    rfl

/-- Every cycle is visited once, from its smallest node on. -/
theorem visitedCycles_spec (h : ∀ row ∈ matrix, row.length = matrix.length) :
    (visitedCycles matrix).Nodup ∧
      (∀ c ∈ visitedCycles matrix, IsCycle (entry matrix) c ∧ FromSmallest c) ∧
      ∀ c, IsCycle (entry matrix) c → ∃! c', c' ∈ visitedCycles matrix ∧ c ~r c' := by
  rw [visitedCycles_eq]
  have hmem : ∀ c, c ∈ (allClosings matrix).map Prod.fst ↔
      IsCycle (entry matrix) c ∧ FromSmallest c := by
    intro c
    rw [List.mem_map]
    constructor
    · rintro ⟨⟨c, total⟩, hmem, rfl⟩
      obtain ⟨hnodup, hsmallest, hweight⟩ := (mem_allClosings h c total).1 hmem
      exact ⟨⟨hnodup, hweight ▸ WithBot.coe_ne_bot⟩, hsmallest⟩
    · rintro ⟨hc, hsmallest⟩
      obtain ⟨total, htotal⟩ := WithBot.ne_bot_iff_exists.1 hc.weight_ne
      exact ⟨(c, total), (mem_allClosings h c total).2 ⟨hc.nodup, hsmallest, htotal.symm⟩, rfl⟩
  refine ⟨nodup_allClosings, fun c hc => (hmem c).1 hc, fun c hc => ?_⟩
  have hne : c ≠ [] := by
    rintro rfl
    exact hc.weight_ne rfl
  obtain ⟨a, b, rfl, hsmallest⟩ := exists_fromSmallest hc.nodup hne
  refine ⟨b ++ a, ⟨(hmem _).2 ⟨hc.rotated, hsmallest⟩, List.isRotated_append⟩, ?_⟩
  rintro c' ⟨hc', hrotated⟩
  exact fromSmallest_unique ((hmem c').1 hc').2 hsmallest
    (hrotated.symm.trans List.isRotated_append)

/-- The kept cycle has the largest mean. -/
theorem foldl_keepBetter (l : List (List ℕ × K)) :
    (l = [] ∧ l.foldl (fun best c => keepBetter best c.1 c.2) none = none) ∨
      ∃ c ∈ l, l.foldl (fun best c => keepBetter best c.1 c.2) none =
        some (c.1, c.2 / c.1.length) ∧ ∀ c' ∈ l, c'.2 / c'.1.length ≤ c.2 / c.1.length := by
  induction l using List.reverseRecOn with
  | nil => exact Or.inl ⟨rfl, rfl⟩
  | append_singleton l last ih =>
    right
    rw [List.foldl_append, List.foldl_cons, List.foldl_nil]
    rcases ih with ⟨rfl, hnone⟩ | ⟨c, hc, hkept, hall⟩
    · exact ⟨last, by simp, rfl, by simp⟩
    · rw [hkept, keepBetter]
      split_ifs with hlt
      · refine ⟨last, by simp, rfl, fun c' hc' => ?_⟩
        rcases List.mem_append.1 hc' with hc' | hc'
        · exact (hall c' hc').trans hlt.le
        · rw [List.mem_singleton.1 hc']
      · refine ⟨c, List.mem_append_left _ hc, rfl, fun c' hc' => ?_⟩
        rcases List.mem_append.1 hc' with hc' | hc'
        · exact hall c' hc'
        · rw [List.mem_singleton.1 hc']
          exact not_lt.1 hlt

/-- What the brute force returns for an admitted matrix. -/
theorem bruteForceMaxCycle_eq
    (h : validateWeightMatrix matrix MAX_BRUTE_FORCE_NODES "brute-force cycle nodes" = .ok ()) :
    (bruteForceMaxCycle matrix = .ok none ∧ ∀ c, ¬ IsCycle (entry matrix) c) ∨
      ∃ c, IsCycle (entry matrix) c ∧
        (∀ c', IsCycle (entry matrix) c' → cycleMean (entry matrix) c' ≤ cycleMean (entry matrix) c) ∧
        bruteForceMaxCycle matrix = .ok (some (c, cycleMean (entry matrix) c)) := by
  have hsquare := (validateWeightMatrix_ok.1 h).2
  have hvalue : bruteForceMaxCycle matrix = .ok ((allClosings matrix).foldl
      (fun best c => keepBetter best c.1 c.2) none) := by
    rw [bruteForceMaxCycle, h, enumerateCycles_eq]
    rfl
  -- every cycle has its mean among the closed ones
  have hclosed : ∀ c', IsCycle (entry matrix) c' → ∃ closed ∈ allClosings matrix,
      closed.2 / closed.1.length = cycleMean (entry matrix) c' := by
    intro c' hc'
    have hne : c' ≠ [] := by
      rintro rfl
      exact hc'.weight_ne rfl
    obtain ⟨a, b, rfl, hsmallest⟩ := exists_fromSmallest hc'.nodup hne
    obtain ⟨total, htotal⟩ := WithBot.ne_bot_iff_exists.1 hc'.rotated.weight_ne
    refine ⟨(b ++ a, total), (mem_allClosings hsquare _ _).2
      ⟨hc'.rotated.nodup, hsmallest, htotal.symm⟩, ?_⟩
    rw [cycleMean_rotated, cycleMean, ← htotal, WithBot.unbotD_coe]
  rcases foldl_keepBetter (allClosings matrix) with ⟨hnil, hnone⟩ | ⟨⟨c, total⟩, hc, hkept, hall⟩
  · left
    refine ⟨by rw [hvalue, hnone], fun c hc => ?_⟩
    obtain ⟨closed, hmem, -⟩ := hclosed c hc
    rw [hnil] at hmem
    exact List.not_mem_nil hmem
  · right
    obtain ⟨hnodup, -, hweight⟩ := (mem_allClosings hsquare c total).1 hc
    have hmean : total / c.length = cycleMean (entry matrix) c := by
      rw [cycleMean, hweight, WithBot.unbotD_coe]
    refine ⟨c, ⟨hnodup, hweight ▸ WithBot.coe_ne_bot⟩, fun c' hc' => ?_, ?_⟩
    · obtain ⟨closed, hmem, heq⟩ := hclosed c' hc'
      rw [← heq, ← hmean]
      exact hall closed hmem
    · rw [hvalue, hkept, hmean]

end BruteForce

section Agreement

variable [IsStrictOrderedRing K]

/-- The largest mean of all cycles, whether nodes may repeat on them or not. -/
structure IsLargestMean (w : ℕ → ℕ → WithBot K) (mean : K) : Prop where
  attained : ∃ c, IsCycle w c ∧ cycleMean w c = mean
  largest : ∀ c, cycleWeight w c ≠ ⊥ → cycleMean w c ≤ mean

theorem isLargestMean {w : ℕ → ℕ → WithBot K} {c : List ℕ} (hc : IsCycle w c)
    (hmax : ∀ c', IsCycle w c' → cycleMean w c' ≤ cycleMean w c) :
    IsLargestMean w (cycleMean w c) := by
  refine ⟨⟨c, hc, rfl⟩, fun c' hc' => ?_⟩
  exact (cycleMean_le_iff hc').2 (BestWalks.mean_le _ hmax c')

/-- Karp's algorithm finds the largest mean of a cycle, and so does the enumeration. -/
theorem maxCycleMean_exact
    (h : validateWeightMatrix matrix MAX_TROPICAL_MATRIX_NODES "matrix nodes" = .ok ()) :
    (maxCycleMean matrix = .ok none ↔ ∀ c, cycleWeight (entry matrix) c = ⊥) ∧
      ((∃ c, cycleWeight (entry matrix) c ≠ ⊥) → ∃ mean, maxCycleMean matrix = .ok (some mean) ∧
        IsLargestMean (entry matrix) mean) ∧
      (validateWeightMatrix matrix MAX_BRUTE_FORCE_NODES "brute-force cycle nodes" = .ok () →
        (maxCycleMean matrix = .ok none → bruteForceMaxCycle matrix = .ok none) ∧
        (∀ mean, maxCycleMean matrix = .ok (some mean) → ∃ c, IsCycle (entry matrix) c ∧
          cycleMean (entry matrix) c = mean ∧ bruteForceMaxCycle matrix = .ok (some (c, mean)) ∧
          criticalCircuit matrix = .ok (some c)) ∧
        (visitedCycles matrix).Nodup ∧
        (∀ c ∈ visitedCycles matrix, IsCycle (entry matrix) c ∧ FromSmallest c) ∧
        ∀ c, IsCycle (entry matrix) c → ∃! c', c' ∈ visitedCycles matrix ∧ c ~r c') := by
  rcases maxCycleMean_eq h with ⟨hnone, hacyclic⟩ | ⟨c, hc, hmax, hsome⟩
  · have hall : ∀ c, cycleWeight (entry matrix) c = ⊥ := by
      intro c
      by_contra hne
      obtain ⟨c', hc'⟩ := exists_isCycle hne
      exact hacyclic c' hc'
    refine ⟨⟨fun _ => hall, fun _ => hnone⟩, fun ⟨c, hne⟩ => absurd (hall c) hne, fun hbrute => ?_⟩
    refine ⟨fun _ => ?_, fun mean hmean => ?_, visitedCycles_spec (validateWeightMatrix_ok.1 h).2⟩
    · rcases bruteForceMaxCycle_eq hbrute with ⟨hresult, -⟩ | ⟨c, hc, -⟩
      · exact hresult
      · exact absurd hc (hacyclic c)
    · rw [hnone] at hmean
      cases hmean
  · refine ⟨⟨fun hnone => ?_, fun hall => absurd (hall c) hc.weight_ne⟩,
      fun _ => ⟨_, hsome, isLargestMean hc hmax⟩, fun hbrute => ?_⟩
    · rw [hnone] at hsome
      cases hsome
    refine ⟨fun hnone => ?_, fun mean hmean => ?_, visitedCycles_spec (validateWeightMatrix_ok.1 h).2⟩
    · rw [hnone] at hsome
      cases hsome
    · rcases bruteForceMaxCycle_eq hbrute with ⟨-, hacyclic⟩ | ⟨c', hc', hmax', hresult⟩
      · exact absurd hc (hacyclic c)
      · have hequal : cycleMean (entry matrix) c' = cycleMean (entry matrix) c :=
          le_antisymm (hmax c' hc') (hmax' c hc)
        obtain rfl : cycleMean (entry matrix) c = mean := by
          rw [hsome] at hmean
          cases hmean
          rfl
        rw [hequal] at hresult
        refine ⟨c', hc', hequal, hresult, ?_⟩
        rw [criticalCircuit, hresult]
        rfl

/-- Two cycles that share a node, and one node apart from them. -/
def twoLoops : List (List (WithBot ℚ)) :=
  [[(1 : ℚ), (2 : ℚ), ⊥, ⊥], [(3 : ℚ), ⊥, (5 : ℚ), ⊥], [⊥, (1 : ℚ), ⊥, ⊥], [(7 : ℚ), ⊥, ⊥, ⊥]]

theorem maxCycleMean_exact_twoLoops :
    ∃ mean c, maxCycleMean twoLoops = .ok (some mean) ∧ IsLargestMean (entry twoLoops) mean ∧
      bruteForceMaxCycle twoLoops = .ok (some (c, mean)) ∧ (visitedCycles twoLoops).Nodup := by
  have h : validateWeightMatrix twoLoops MAX_TROPICAL_MATRIX_NODES "matrix nodes" = .ok () := rfl
  have hbrute : validateWeightMatrix twoLoops MAX_BRUTE_FORCE_NODES "brute-force cycle nodes" =
      .ok () := rfl
  have hloop : cycleWeight (entry twoLoops) [0] ≠ ⊥ := WithBot.coe_ne_bot
  obtain ⟨-, hsome, hsmall⟩ := maxCycleMean_exact h
  obtain ⟨mean, hmean, hlargest⟩ := hsome ⟨[0], hloop⟩
  obtain ⟨c, -, -, hresult, -⟩ := (hsmall hbrute).2.1 mean hmean
  exact ⟨mean, c, hmean, hlargest, hresult, (hsmall hbrute).2.2.1⟩

end Agreement

end FrankenSim.Tropical
