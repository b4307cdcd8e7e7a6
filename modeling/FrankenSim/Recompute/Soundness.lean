import FrankenSim.Recompute.Verdicts

/-!
# Soundness of a single plan

Whatever the true output changes are, as long as they respect the listed
magnitudes and sensitivities, a skipped node moves by less than its slack, a node
without a verdict does not move, and the recomputed nodes find their inputs fresh
or unchanged when they run in the order of the plan.
-/
namespace FrankenSim.Recompute

open Library ExactFloat

open scoped ENNReal

/-- Output changes within the supplied bounds: every node moves by at most what is
listed for it and what its incoming edges carry. -/
def Respects (edges : List (Edge ExactFloat)) (perturbations : List (ContentHash × ExactFloat))
    (change : ContentHash → ℝ≥0∞) : Prop :=
  ∀ k, change k ≤ sourceSum perturbations k +
    ((incoming edges k).map fun e => carried e.sensitivity (change e.fromNode)).sum

theorem frontier_respects (edges : List (Edge ExactFloat))
    (perturbations : List (ContentHash × ExactFloat)) :
    Respects edges perturbations (frontier edges perturbations) :=
  fun k => (frontier_eq_inflow edges perturbations k).le

theorem Respects.le_frontier {store : Store ExactFloat} {edges : List (Edge ExactFloat)}
    {perturbations : List (ContentHash × ExactFloat)} {change : ContentHash → ℝ≥0∞}
    (hchange : Respects edges perturbations change) (hordered : Ordered store edges)
    (k : ContentHash) : change k ≤ frontier edges perturbations k := by
  refine (propagation edges perturbations).le_frontier
    (fun k => (store.nodes[k]?.map StoredNode.seq).getD 0) (fun e he => ?_) hchange k
  obtain ⟨m, n, hm, hn, hlt⟩ := hordered e he
  change (store.nodes[e.fromNode]?.map StoredNode.seq).getD 0 <
    (store.nodes[e.toNode]?.map StoredNode.seq).getD 0
  rw [hm, hn]
  exact hlt

def Verdict.IsRecompute {F : Type} (v : Verdict F) : Prop := ∃ bound reason, v = recompute bound reason

section

variable [HashBytes] {store : Store ExactFloat} {edges : List (Edge ExactFloat)}
  {perturbations : List (ContentHash × ExactFloat)} {p : InvalidationPlan ExactFloat}

/-- The verdict of a reached node says whether it must be recomputed. -/
theorem PlanOf.isRecompute_iff (h : PlanOf store edges perturbations p) {k : ContentHash}
    {v : Verdict ExactFloat} (hv : (k, v) ∈ p.verdicts) :
    v.IsRecompute ↔ MustRecompute store edges perturbations k := by
  cases v with
  | recompute bound reason =>
    exact ⟨fun _ => h.recompute k bound reason hv, fun _ => ⟨bound, reason, rfl⟩⟩
  | skip bound left =>
    refine ⟨?_, fun hmust => absurd hmust (h.skip k bound left hv).1⟩
    rintro ⟨_, _, hverdict⟩
    cases hverdict

theorem PlanOf.pulls_parent (h : PlanOf store edges perturbations p) {e : Edge ExactFloat}
    (he : e ∈ edges) {v w : Verdict ExactFloat} (hto : (e.toNode, v) ∈ p.verdicts)
    (hv : v.IsRecompute) (hfrom : (e.fromNode, w) ∈ p.verdicts) : w.IsRecompute := by
  have hreached : ∀ {k v}, (k, v) ∈ p.verdicts → frontier edges perturbations k ≠ 0 :=
    fun hv => (h.reached _).1 (List.mem_map_of_mem hv)
  refine (h.isRecompute_iff hfrom).2 (.pull ⟨⟨e, he, rfl, rfl⟩, ?_, ?_⟩ ((h.isRecompute_iff hto).1 hv))
  · exact hreached hfrom
  · exact hreached hto

/-- A plan lists the upstream end of an edge before the downstream end. -/
theorem PlanOf.mem_before (h : PlanOf store edges perturbations p) {e : Edge ExactFloat}
    (he : e ∈ edges) {v w : Verdict ExactFloat} {before after : List (ContentHash × Verdict ExactFloat)}
    (hsplit : p.verdicts = before ++ (e.toNode, v) :: after)
    (hfrom : (e.fromNode, w) ∈ p.verdicts) : (e.fromNode, w) ∈ before := by
  obtain ⟨m, n, hm, hn, hlt⟩ := h.ordered e he
  have hsorted := h.sorted
  rw [hsplit] at hsorted hfrom
  rcases List.mem_append.1 hfrom with hbefore | hlater
  · exact hbefore
  · have htail := (List.pairwise_append.1 hsorted).2.1
    rcases List.mem_cons.1 hlater with heq | hafter
    · rw [(Prod.mk.inj heq).1, hn] at hm
      rw [Option.some.inj hm] at hlt
      exact absurd hlt (lt_irrefl _)
    · exact absurd ((List.pairwise_cons.1 htail).1 _ hafter n m hn hm) (not_le.2 hlt)

/-- Whatever moves within the supplied bounds, a plan on a reachable store skips
only what stays inside its slack, leaves out only what does not move, and
recomputes the recomputed parents of a recomputed node before it. -/
theorem plan_sound {apiEdges : List (Edge ExactFloat)} {defaultCost : ExactFloat}
    {api : RecomputeApi ExactFloat} (hreach : Reaches apiEdges defaultCost api)
    (hplan : plan api.store edges perturbations = .ok p) {change : ContentHash → ℝ≥0∞}
    (hchange : Respects edges perturbations change) :
    (∀ k bound left, (k, Verdict.skip bound left) ∈ p.verdicts →
      ∃ (n : StoredNode ExactFloat) (b slack : ℚ), api.store.nodes[k]? = some n ∧
        bound = fin b ∧ n.effectiveSlack = fin slack ∧
        change k ≤ ENNReal.ofReal b ∧ change k < ENNReal.ofReal slack) ∧
    (∀ k, k ∉ p.verdicts.map Prod.fst → change k = 0) ∧
    (∀ e ∈ edges, ∀ v w, (e.toNode, v) ∈ p.verdicts → v.IsRecompute →
      (e.fromNode, w) ∈ p.verdicts → w.IsRecompute) ∧
    ∀ before k v after, p.verdicts = before ++ (k, v) :: after → v.IsRecompute →
      ∀ e ∈ edges, e.toNode = k →
        change e.fromNode = 0 ∨ ∃ w : Verdict ExactFloat, w.IsRecompute ∧ (e.fromNode, w) ∈ before := by
  have hspec := plan_spec hreach.wellFormed hreach.budgeted hplan
  have hle := hchange.le_frontier hspec.ordered
  have hunreached : ∀ k, k ∉ p.verdicts.map Prod.fst → change k = 0 := by
    intro k hk
    rw [hspec.reached, not_not] at hk
    exact le_antisymm (hk ▸ hle k) zero_le
  refine ⟨fun k bound left hv => ?_, hunreached,
    fun e he v w hto hv hfrom => hspec.pulls_parent he hto hv hfrom, ?_⟩
  · obtain ⟨-, n, b, slack, hn, hslack, hbound, -, hfrontier, hnonneg, hlt⟩ :=
      hspec.skip k bound left hv
    have hwithin : change k ≤ ENNReal.ofReal b := hfrontier ▸ hle k
    have hcast : (0 : ℝ) ≤ b := by exact_mod_cast hnonneg
    have hfits : ENNReal.ofReal b < ENNReal.ofReal slack :=
      (ENNReal.ofReal_lt_ofReal_iff_of_nonneg hcast).2 (by exact_mod_cast hlt)
    exact ⟨n, b, slack, hn, hbound, hslack, hwithin, hwithin.trans_lt hfits⟩
  · rintro before k v after hsplit hv e he rfl
    by_cases hfrom : e.fromNode ∈ p.verdicts.map Prod.fst
    · obtain ⟨⟨_, w⟩, hw, rfl⟩ := List.mem_map.1 hfrom
      have hto : (e.toNode, v) ∈ p.verdicts := by simp [hsplit]
      exact Or.inr ⟨w, hspec.pulls_parent he hto hv hw, hspec.mem_before he hsplit hw⟩
    · exact Or.inl (hunreached _ hfrom)

end

/-- Two nodes in a chain; the second absorbs what the first passes on. -/
def chainRun : List (Action ExactFloat) :=
  [.put (plainRecord "mesh" 0 1) [1], .put (plainRecord "solve" 0 1) [2]]

theorem plan_sound_chain :
    let _ := toyHash
    let edge : Edge ExactFloat := ⟨(plainRecord "mesh" 0 1).contentHash,
      (plainRecord "solve" 0 1).contentHash, fin (1 / 2)⟩
    ∃ api p, Reaches [edge] 0 api ∧ plan api.store [edge] [(edge.fromNode, fin (1 / 2))] = .ok p ∧
      (edge.toNode, Verdict.skip (fin (1 / 4)) (fin (3 / 4))) ∈ p.verdicts ∧
      frontier [edge] [(edge.fromNode, fin (1 / 2))] edge.toNode < 1 := by
  intro hash edge
  have hrun : (runList step (RecomputeApi.new (Store.new ExactFloat) [edge] 0) chainRun).isSome := by
    decide +kernel
  obtain ⟨api, hapi⟩ := Option.isSome_iff_exists.1 hrun
  have hfacts : ∀ api ∈ runList step (RecomputeApi.new (Store.new ExactFloat) [edge] 0) chainRun,
      ((plan api.store [edge] [(edge.fromNode, fin (1 / 2))]).toOption.map fun p =>
        decide ((edge.toNode, Verdict.skip (fin (1 / 4)) (fin (3 / 4))) ∈ p.verdicts)) =
          some true := by
    decide +kernel
  obtain ⟨p, hp, hskip⟩ := Option.map_eq_some_iff.1 (hfacts api hapi)
  have hplan := ok_of_toOption hp
  have hreach : Reaches [edge] 0 api := ⟨_, run_of_runList hapi⟩
  have hskip := of_decide_eq_true hskip
  obtain ⟨n, b, slack, -, hb, -, hle, -⟩ :=
    (plan_sound hreach hplan (frontier_respects _ _)).1 _ _ _ hskip
  obtain rfl := (fin.inj hb).symm
  refine ⟨api, p, hreach, hplan, hskip, hle.trans_lt ?_⟩
  rw [← ENNReal.ofReal_one]
  exact (ENNReal.ofReal_lt_ofReal_iff one_pos).2 (by norm_num)

end FrankenSim.Recompute
