import FrankenSim.Library.Extrema
import FrankenSim.Tropical.CycleMean
import Mathlib.Data.List.GetD

/-!
# Karp's algorithm

The table holds the best walks with every number of edges, so that the least mean of the
last edges, at the node where it is greatest, is the largest mean of a cycle.
-/
namespace FrankenSim.Tropical

open Library

variable {K : Type} {matrix : List (List (WithBot K))}

theorem validateWeightMatrix_ok {limit : ℕ} {resource : String} :
    validateWeightMatrix matrix limit resource = .ok () ↔
      matrix.length ≤ limit ∧ ∀ row ∈ matrix, row.length = matrix.length := by
  rw [validateWeightMatrix, bind_eq_ok_iff]
  constructor
  · rintro ⟨_, hlimit, hrows⟩
    rw [refuseWhen_ok] at hlimit
    refine ⟨not_lt.1 hlimit, fun row hrow => ?_⟩
    obtain ⟨i, hi, rfl⟩ := List.mem_iff_getElem.1 hrow
    have hcheck := forM_ok.1 hrows (matrix[i], i) (List.mk_mem_zipIdx_iff_getElem?.2 (by simp))
    rw [refuseWhen_ok] at hcheck
    exact not_not.1 hcheck
  · rintro ⟨hlimit, hrows⟩
    refine ⟨(), refuseWhen_ok.2 (not_lt.2 hlimit), forM_ok.2 ?_⟩
    rintro ⟨row, i⟩ hrow
    rw [refuseWhen_ok]
    exact not_not.2 (hrows row (List.fst_mem_of_mem_zipIdx hrow))

theorem entry_ne_bot (h : ∀ row ∈ matrix, row.length = matrix.length) {u v : ℕ}
    (hedge : entry matrix u v ≠ ⊥) : u < matrix.length ∧ v < matrix.length := by
  have hu : u < matrix.length := by
    by_contra hge
    rw [entry, List.getD_eq_default _ _ (not_lt.1 hge)] at hedge
    exact hedge rfl
  refine ⟨hu, ?_⟩
  by_contra hge
  rw [entry, List.getD_eq_getElem _ _ hu, List.getD_eq_default] at hedge
  · exact hedge rfl
  · rw [h _ (List.getElem_mem hu)]
    exact not_lt.1 hge

variable [Field K] [LinearOrder K]

theorem extendWalks_spec (d : List (WithBot K)) (v : ℕ) :
    (∀ u < matrix.length, d.getD u ⊥ + entry matrix u v ≤ extendWalks matrix d v) ∧
      (extendWalks matrix d v = ⊥ ∨
        ∃ u < matrix.length, extendWalks matrix d v = d.getD u ⊥ + entry matrix u v) := by
  have hscan := foldl_max_skipping (fun u => ¬ (d.getD u ⊥ ≠ ⊥ ∧ entry matrix u v ≠ ⊥))
    (fun u => d.getD u ⊥ + entry matrix u v) (List.range matrix.length)
  simp only [ite_not] at hscan
  obtain ⟨hall, hmem⟩ := hscan
  constructor
  · intro u hu
    by_cases hedge : d.getD u ⊥ ≠ ⊥ ∧ entry matrix u v ≠ ⊥
    · exact hall u (List.mem_range.2 hu) (not_not.2 hedge)
    · have hbot : d.getD u ⊥ + entry matrix u v = ⊥ := by
        rw [WithBot.add_eq_bot]
        tauto
      rw [hbot]
      exact bot_le
  · rcases hmem with hbot | ⟨u, hu, -, heq⟩
    · exact Or.inl hbot
    · exact Or.inr ⟨u, List.mem_range.1 hu, heq⟩

theorem walkTo_succ {k v : ℕ} (hv : v < matrix.length) :
    walkTo matrix (k + 1) v = extendWalks matrix (walks matrix k) v := by
  rw [walkTo, walks, List.getD_eq_getElem?_getD, List.getElem?_map, List.getElem?_range hv]
  rfl

theorem walkTo_of_le {k v : ℕ} (hv : matrix.length ≤ v) : walkTo matrix k v = ⊥ := by
  rw [walkTo, List.getD_eq_default]
  cases k with
  | zero => simpa [walks] using hv
  | succ k => simpa [walks] using hv

/-- The table of best walks. -/
theorem bestWalks (h : ∀ row ∈ matrix, row.length = matrix.length) :
    BestWalks (entry matrix) (Finset.range matrix.length) (walkTo matrix) := by
  constructor
  · intro u v hedge
    rw [Finset.mem_range, Finset.mem_range]
    exact entry_ne_bot h hedge
  · intro v hv
    rw [Finset.mem_range] at hv
    rw [walkTo, walks, List.getD_replicate _ hv]
  · intro k u v
    by_cases hedge : entry matrix u v = ⊥
    · rw [hedge, WithBot.add_bot]
      exact bot_le
    · obtain ⟨hu, hv⟩ := entry_ne_bot h hedge
      rw [walkTo_succ hv]
      exact (extendWalks_spec _ v).1 u hu
  · intro k v
    by_cases hv : v < matrix.length
    · rw [walkTo_succ hv]
      exact (extendWalks_spec _ v).2.imp_right fun ⟨u, _, heq⟩ => ⟨u, heq⟩
    · exact Or.inl (walkTo_of_le (not_lt.1 hv))

/-- The scan of the shorter walks to a node that is reached with `n` edges. -/
theorem worstMean_spec {v : ℕ} {x : K} (hx : walkTo matrix matrix.length v = x)
    (hstart : walkTo matrix 0 v ≠ ⊥) (hlength : 0 < matrix.length) :
    ∃ worst : K, worstMean matrix v = worst ∧
      (∀ k < matrix.length, ∀ y : K, walkTo matrix k v = y →
        worst ≤ (x - y) / (matrix.length - k : ℕ)) ∧
      ∃ k < matrix.length, ∃ y : K, walkTo matrix k v = y ∧
        worst = (x - y) / (matrix.length - k : ℕ) := by
  obtain ⟨hall, hmem⟩ := foldl_min_skipping (fun k => walkTo matrix k v = ⊥)
    (fun k => (↑(((walkTo matrix matrix.length v).unbotD 0 - (walkTo matrix k v).unbotD 0) /
      (matrix.length - k : ℕ)) : WithTop K)) (List.range matrix.length)
  change (∀ k ∈ List.range matrix.length, ¬ walkTo matrix k v = ⊥ → worstMean matrix v ≤ _) at hall
  change worstMean matrix v = ⊤ ∨ (∃ k ∈ List.range matrix.length, ¬ walkTo matrix k v = ⊥ ∧
    worstMean matrix v = _) at hmem
  have hfinite : worstMean matrix v ≠ ⊤ := by
    intro htop
    have hle := hall 0 (List.mem_range.2 hlength) hstart
    rw [htop, top_le_iff] at hle
    exact WithTop.coe_ne_top hle
  rcases hmem with htop | ⟨k, hk, hne, heq⟩
  · exact absurd htop hfinite
  · obtain ⟨y, hy⟩ := WithBot.ne_bot_iff_exists.1 hne
    rw [hx, ← hy, WithBot.unbotD_coe, WithBot.unbotD_coe] at heq
    refine ⟨_, heq, ?_, k, List.mem_range.1 hk, y, hy.symm, rfl⟩
    intro k' hk' y' hy'
    have hle := hall k' (List.mem_range.2 hk') (by rw [hy']; exact WithBot.coe_ne_bot)
    rwa [heq, hx, hy', WithBot.unbotD_coe, WithBot.unbotD_coe, WithTop.coe_le_coe] at hle

/-- The largest of the least means. -/
def greatestMean (matrix : List (List (WithBot K))) : WithBot K :=
  (List.range matrix.length).foldl (fun lambda v =>
    if walkTo matrix matrix.length v = ⊥ then lambda
    else if worstMean matrix v = ⊤ then lambda else max lambda ↑((worstMean matrix v).untopD 0)) ⊥

theorem greatestMean_spec (matrix : List (List (WithBot K))) :
    (∀ v < matrix.length, walkTo matrix matrix.length v ≠ ⊥ → ∀ worst : K,
      worstMean matrix v = worst → worst ≤ greatestMean matrix) ∧
    (greatestMean matrix = ⊥ ∨ ∃ v < matrix.length, walkTo matrix matrix.length v ≠ ⊥ ∧
      ∃ worst : K, worstMean matrix v = worst ∧ greatestMean matrix = worst) := by
  have hscan := foldl_max_skipping
    (fun v => walkTo matrix matrix.length v = ⊥ ∨ worstMean matrix v = ⊤)
    (fun v => (↑((worstMean matrix v).untopD 0) : WithBot K)) (List.range matrix.length)
  simp only [ite_or] at hscan
  obtain ⟨hall, hmem⟩ := hscan
  constructor
  · intro v hv hne worst hworst
    have hle := hall v (List.mem_range.2 hv) (by rw [hworst]; simp [hne])
    rw [hworst, WithTop.untopD_coe] at hle
    exact hle
  · rcases hmem with hbot | ⟨v, hv, hne, heq⟩
    · exact Or.inl hbot
    · right
      rw [not_or] at hne
      obtain ⟨worst, hworst⟩ := WithTop.ne_top_iff_exists.1 hne.2
      rw [← hworst, WithTop.untopD_coe] at heq
      exact ⟨v, List.mem_range.1 hv, hne.1, worst, hworst.symm, heq⟩

variable [IsStrictOrderedRing K]

/-- What Karp's algorithm returns for an admitted matrix. -/
theorem maxCycleMean_eq
    (h : validateWeightMatrix matrix MAX_TROPICAL_MATRIX_NODES "matrix nodes" = .ok ()) :
    (maxCycleMean matrix = .ok none ∧ ∀ c, ¬ IsCycle (entry matrix) c) ∨
      ∃ c, IsCycle (entry matrix) c ∧
        (∀ c', IsCycle (entry matrix) c' → cycleMean (entry matrix) c' ≤ cycleMean (entry matrix) c) ∧
        maxCycleMean matrix = .ok (some (cycleMean (entry matrix) c)) := by
  have hwalks := bestWalks (validateWeightMatrix_ok.1 h).2
  have hvalue : maxCycleMean matrix = if matrix.length = 0 then .ok none
      else if greatestMean matrix = ⊥ then .ok none
      else .ok (some ((greatestMean matrix).unbotD 0)) := by
    rw [maxCycleMean, h]
    rfl
  by_cases hcycle : ∃ c, IsCycle (entry matrix) c
  · right
    obtain ⟨c, hc, hmax⟩ := hwalks.exists_max hcycle
    refine ⟨c, hc, hmax, ?_⟩
    obtain ⟨hbelow, v, hv, x, hx, habove⟩ := hwalks.karp hc hmax
    simp only [Finset.card_range, Finset.mem_range] at hbelow hv hx habove
    have hlength : 0 < matrix.length := by omega
    have hstart : ∀ u < matrix.length, walkTo matrix 0 u ≠ ⊥ := by
      intro u hu
      rw [hwalks.start u (Finset.mem_range.2 hu)]
      exact WithBot.coe_ne_bot
    obtain ⟨hall, hmem⟩ := greatestMean_spec matrix
    obtain ⟨worst, hworst, -, k, hk, y, hy, heq⟩ := worstMean_spec hx (hstart v hv) hlength
    have hle := hall v hv (by rw [hx]; exact WithBot.coe_ne_bot) worst hworst
    have hge : cycleMean (entry matrix) c ≤ worst := heq ▸ habove k hk y hy
    rcases hmem with hbot | ⟨u, hu, hne, least, hleast, hlambda⟩
    · rw [hbot, le_bot_iff] at hle
      exact absurd hle WithBot.coe_ne_bot
    · -- the least mean at any node is at most the largest mean of a cycle
      obtain ⟨z, hz⟩ := WithBot.ne_bot_iff_exists.1 hne
      obtain ⟨k', hk', y', hy', hsmall⟩ := hbelow u hu z hz.symm
      obtain ⟨least', hleast', hleastLe, -⟩ := worstMean_spec hz.symm (hstart u hu) hlength
      rw [hleast, WithTop.coe_inj] at hleast'
      subst hleast'
      rw [hlambda, WithBot.coe_le_coe] at hle
      have hlast := (hleastLe k' hk' y' hy').trans hsmall
      have hequal : least = cycleMean (entry matrix) c := le_antisymm hlast (hge.trans hle)
      rw [hvalue, if_neg hlength.ne', hlambda, if_neg WithBot.coe_ne_bot, WithBot.unbotD_coe, hequal]
  · left
    push Not at hcycle
    refine ⟨?_, hcycle⟩
    rw [hvalue]
    split_ifs with hzero hbot
    · rfl
    · rfl
    · rcases (greatestMean_spec matrix).2 with hnone | ⟨v, hv, hne, -⟩
      · exact absurd hnone hbot
      · have hacyclic := hwalks.eq_bot_of_acyclic hcycle (Finset.mem_range.2 hv)
        rw [Finset.card_range] at hacyclic
        exact absurd hacyclic hne

end FrankenSim.Tropical
