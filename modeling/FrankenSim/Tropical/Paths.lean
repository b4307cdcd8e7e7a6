import FrankenSim.Tropical.Finishes

/-!
# Paths from sources to terminals

The earliest finish of a task bounds the total latency of every path to it and is attained
by the path of best predecessors. The backward pass does the same for the paths that
lead away from a task.
-/
namespace FrankenSim.Tropical.TaskDag

open Library

variable {K : Type} {dag : TaskDag K}

def total [AddCommGroup K] (dag : TaskDag K) (p : List ℕ) : K := (p.map dag.latencyOf).sum

/-- Tasks of the graph, every one with an edge to the next one. -/
structure IsPath (dag : TaskDag K) (p : List ℕ) : Prop where
  chain : p.IsChain dag.Edge
  lt : ∀ v ∈ p, v < dag.len

/-- A path from a source to a terminal. Only the empty graph has the empty one. -/
structure IsComplete (dag : TaskDag K) (p : List ℕ) : Prop extends dag.IsPath p where
  source : ∀ v ∈ p.head?, ∀ u, ¬ dag.Edge u v
  terminal : ∀ v ∈ p.getLast?, ∀ w, ¬ dag.Edge v w
  ne_nil : dag.len ≠ 0 → p ≠ []

section Lists

variable {p q : List ℕ} {u v w : ℕ}

section Total

variable [AddCommGroup K]

@[simp]
theorem total_nil : dag.total [] = 0 := rfl

@[simp]
theorem total_cons : dag.total (v :: p) = dag.latencyOf v + dag.total p := by
  rw [total, total, List.map_cons, List.sum_cons]

@[simp]
theorem total_append : dag.total (p ++ q) = dag.total p + dag.total q := by
  rw [total, total, total, List.map_append, List.sum_append]

end Total

theorem IsPath.of_append (h : dag.IsPath (p ++ q)) : dag.IsPath p ∧ dag.IsPath q := by
  obtain ⟨hp, hq, -⟩ := List.isChain_append.1 h.chain
  exact ⟨⟨hp, fun v hv => h.lt v (List.mem_append_left q hv)⟩,
    ⟨hq, fun v hv => h.lt v (List.mem_append_right p hv)⟩⟩

theorem IsPath.tail (h : dag.IsPath (v :: p)) : dag.IsPath p :=
  (IsPath.of_append (p := [v]) h).2

theorem IsPath.edge_last (h : dag.IsPath (p ++ [u] ++ [v])) : dag.Edge u v := by
  obtain ⟨-, -, hlast⟩ := List.isChain_append.1 h.chain
  exact hlast u (by simp) v (by simp)

theorem IsPath.edge_head (h : dag.IsPath (u :: v :: p)) : dag.Edge u v :=
  (List.isChain_cons_cons.1 h.chain).1

theorem IsPath.snoc (h : dag.IsPath (p ++ [u])) (hedge : dag.Edge u v) (hv : v < dag.len) :
    dag.IsPath (p ++ [u] ++ [v]) := by
  constructor
  · rw [List.isChain_append]
    refine ⟨h.chain, List.isChain_singleton v, ?_⟩
    simp [hedge]
  · intro w hw
    rcases List.mem_append.1 hw with hw | hw
    · exact h.lt w hw
    · rwa [List.mem_singleton.1 hw]

theorem IsPath.cons (h : dag.IsPath (v :: p)) (hedge : dag.Edge u v) (hu : u < dag.len) :
    dag.IsPath (u :: v :: p) :=
  ⟨List.isChain_cons_cons.2 ⟨hedge, h.chain⟩, List.forall_mem_cons.2 ⟨hu, h.lt⟩⟩

/-- Paths that meet in a task join there. -/
theorem IsPath.join (h : dag.IsPath (p ++ [v])) (h' : dag.IsPath (v :: q)) :
    dag.IsPath (p ++ v :: q) := by
  obtain ⟨hchain, -, hmeet⟩ := List.isChain_append.1 h.chain
  constructor
  · rw [List.isChain_append]
    refine ⟨hchain, h'.chain, ?_⟩
    intro x hx y hy
    exact hmeet x hx y (by simpa using hy)
  · intro w hw
    rcases List.mem_append.1 hw with hw | hw
    · exact h.lt w (List.mem_append_left _ hw)
    · exact h'.lt w hw

end Lists

section Trace

/-- The path of best predecessors to a task. -/
inductive Traced (bestPred : ℕ → Option ℕ) : ℕ → List ℕ → Prop
  | source {v : ℕ} (h : bestPred v = none) : Traced bestPred v [v]
  | step {u v : ℕ} {p : List ℕ} (h : bestPred v = some u) (htraced : Traced bestPred u (p ++ [u])) :
    Traced bestPred v (p ++ [u] ++ [v])

theorem Traced.ends {bestPred : ℕ → Option ℕ} {v : ℕ} {p : List ℕ} (h : Traced bestPred v p) :
    ∃ q, p = q ++ [v] := by
  cases h with
  | source h => exact ⟨[], rfl⟩
  | @step u _ q h htraced => exact ⟨q ++ [u], rfl⟩

/-- The backtracking puts the traced path in front. -/
theorem traced_backtrack {order : List ℕ} {bestPred : ℕ → Option ℕ}
    (hearlier : ∀ u v, v ∈ order → bestPred v = some u →
      u ∈ order ∧ order.idxOf u < order.idxOf v) {fuel v : ℕ} (hv : v ∈ order)
    (hfuel : order.idxOf v ≤ fuel) (rest : List ℕ) :
    ∃ p, Traced bestPred v p ∧ backtrack bestPred fuel v (v :: rest) = p ++ rest := by
  induction fuel generalizing v rest with
  | zero =>
    refine ⟨[v], .source ?_, rfl⟩
    cases hpred : bestPred v with
    | none => rfl
    | some u =>
      have := (hearlier u v hv hpred).2
      omega
  | succ fuel ih =>
    rw [backtrack]
    cases hpred : bestPred v with
    | none => exact ⟨[v], .source hpred, rfl⟩
    | some u =>
      obtain ⟨hu, hlt⟩ := hearlier u v hv hpred
      obtain ⟨p, htraced, hback⟩ := ih hu (by omega) (v :: rest)
      obtain ⟨q, rfl⟩ := htraced.ends
      refine ⟨q ++ [u] ++ [v], .step hpred htraced, ?_⟩
      dsimp only
      rw [hback, List.append_assoc _ [v], List.singleton_append]

end Trace

variable [AddCommGroup K] [LinearOrder K]

section Forward

variable [IsOrderedAddMonoid K] {preds : ℕ → List ℕ} {ef : EarliestFinishes K}

/-- No path to a task takes longer than its earliest finish. -/
theorem Earliest.total_le (hef : Earliest dag preds ef) (h : dag.Admitted)
    (hpreds : ∀ u v, u ∈ preds v ↔ dag.Edge u v) {p : List ℕ} {v : ℕ}
    (hp : dag.IsPath (p ++ [v])) : dag.total (p ++ [v]) ≤ ef.values v := by
  induction p using List.reverseRecOn generalizing v with
  | nil =>
    have hv := hp.lt v (by simp)
    rw [List.nil_append, total_cons, total_nil, add_zero]
    by_cases hsource : preds v = []
    · exact (hef.source v hv hsource).2.ge
    · obtain ⟨best, hmem, -, hvalue, -⟩ := hef.step v hv hsource
      have hbest := hef.nonneg best (h.edge_lt ((hpreds best v).1 hmem)).1
      rw [hvalue]
      exact le_add_of_nonneg_left hbest
  | append_singleton p u ih =>
    have hv := hp.lt v (by simp)
    have hu := (hpreds u v).2 hp.edge_last
    obtain ⟨best, -, -, hvalue, hall⟩ := hef.step v hv (List.ne_nil_of_mem hu)
    have hfirst := (ih hp.of_append.1).trans (hall u hu)
    rw [total_append, total_cons, total_nil, add_zero, hvalue]
    exact add_le_add_left hfirst _

omit [IsOrderedAddMonoid K] in
/-- The traced path starts at a source and attains the earliest finish. -/
theorem Earliest.traced (hef : Earliest dag preds ef) (h : dag.Admitted)
    (hpreds : ∀ u v, u ∈ preds v ↔ dag.Edge u v) {v : ℕ} {p : List ℕ} (hv : v < dag.len)
    (htraced : Traced ef.bestPred v p) :
    dag.IsPath p ∧ (∀ w ∈ p.head?, ∀ u, ¬ dag.Edge u w) ∧ dag.total p = ef.values v := by
  induction htraced with
  | @source v hpred =>
    have hsource : preds v = [] := by
      by_contra hstep
      obtain ⟨best, -, hbest, -⟩ := hef.step v hv hstep
      rw [hbest] at hpred
      exact absurd hpred (by simp)
    refine ⟨⟨List.isChain_singleton v, by simpa using hv⟩, ?_, ?_⟩
    · intro w hw u hedge
      obtain rfl : v = w := by simpa using hw
      have := (hpreds u v).2 hedge
      rw [hsource] at this
      exact absurd this (List.not_mem_nil)
    · rw [total_cons, total_nil, add_zero, (hef.source v hv hsource).2]
  | @step u v p hpred htraced ih =>
    have hstep : preds v ≠ [] := by
      intro hsource
      rw [(hef.source v hv hsource).1] at hpred
      exact absurd hpred (by simp)
    obtain ⟨best, hmem, hbest, hvalue, -⟩ := hef.step v hv hstep
    obtain rfl : best = u := by
      rw [hbest] at hpred
      exact Option.some.inj hpred
    have hedge := (hpreds best v).1 hmem
    obtain ⟨hpath, hsource, htotal⟩ := ih (h.edge_lt hedge).1
    refine ⟨hpath.snoc hedge hv, ?_, ?_⟩
    · intro w hw
      apply hsource w
      rw [List.head?_append_of_ne_nil _ (by simp)] at hw
      exact hw
    · rw [total_append, htotal, hvalue, total_cons, total_nil, add_zero]

end Forward

section Backward

/-- What the backward pass computes: every task from its successors. -/
structure Latest (dag : TaskDag K) (adj : ℕ → List ℕ) (makespan : K) (lf : ℕ → K) : Prop where
  terminal : ∀ u < dag.len, adj u = [] → lf u = makespan
  step : ∀ u < dag.len, adj u ≠ [] →
    lf u = ((adj u).map fun v => lf v - dag.latencyOf v).foldl min makespan

theorem latest_spec {topology : DagTopology} (h : dag.Admitted) (htop : dag.Sorted topology)
    (makespan : K) :
    Latest dag topology.adj makespan
      (sweepValues (dag.latest topology.adj makespan) topology.order.reverse fun _ => makespan) := by
  have hnodes : ∀ e ∈ dag.edges, e.2 ∈ topology.order := fun e he =>
    (htop.mem_order _).2 (h.edges_lt e he).2
  have hsorted := htop.sorted.reverse htop.nodup hnodes
  have hnodup := List.nodup_reverse.2 htop.nodup
  have hmem : ∀ v, v ∈ topology.order.reverse ↔ v < dag.len := by
    simpa using htop.mem_order
  generalize topology.order.reverse = order at *
  have hsplit : ∀ u < dag.len, ∃ s, sweepValues (dag.latest topology.adj makespan) order
      (fun _ => makespan) u = dag.latest topology.adj makespan s u ∧ s u = makespan ∧
      ∀ v ∈ topology.adj u, s v = sweepValues (dag.latest topology.adj makespan) order
        (fun _ => makespan) v := by
    intro u hu
    obtain ⟨before, after, rfl, -⟩ := List.eq_append_cons_of_mem ((hmem u).2 hu)
    obtain ⟨s, hvalue, hu, hs⟩ := sweepValues_split (f := dag.latest topology.adj makespan)
      (s := fun _ => makespan) hnodup
    refine ⟨s, hvalue, hu, fun v hv => hs v ?_⟩
    apply hsorted before u after rfl v
    exact List.mem_map.2 ⟨(u, v), (htop.mem_adj u v).1 hv, rfl⟩
  constructor
  · intro u hu hterminal
    obtain ⟨s, hvalue, hs, -⟩ := hsplit u hu
    rw [hvalue, latest, if_pos hterminal, hs]
  · intro u hu hstep
    obtain ⟨s, hvalue, -, hs⟩ := hsplit u hu
    rw [hvalue, latest, if_neg hstep]
    congr 1
    exact List.map_congr_left fun v hv => by rw [hs v hv]

theorem Latest.le_makespan {adj : ℕ → List ℕ} {makespan : K} {lf : ℕ → K}
    (hlf : Latest dag adj makespan lf) {u : ℕ} (hu : u < dag.len) : lf u ≤ makespan := by
  by_cases hterminal : adj u = []
  · exact (hlf.terminal u hu hterminal).le
  · rw [hlf.step u hu hterminal]
    exact (foldl_min_le _ _).1

variable [IsOrderedAddMonoid K] {topology : DagTopology} {makespan : K} {lf : ℕ → K}

/-- No path away from a task takes longer than the time left after its latest finish. -/
theorem Latest.total_le (hlf : Latest dag topology.adj makespan lf) (htop : dag.Sorted topology)
    {u : ℕ} {q : List ℕ} (hq : dag.IsPath (u :: q)) : lf u + dag.total q ≤ makespan := by
  induction q generalizing u with
  | nil =>
    rw [total_nil, add_zero]
    exact hlf.le_makespan (hq.lt u List.mem_cons_self)
  | cons v q ih =>
    have hv := (htop.mem_adj u v).2 hq.edge_head
    have hle : lf u ≤ lf v - dag.latencyOf v := by
      rw [hlf.step u (hq.lt u List.mem_cons_self) (List.ne_nil_of_mem hv)]
      exact (foldl_min_le _ _).2 _ (List.mem_map_of_mem hv)
    calc lf u + dag.total (v :: q)
        ≤ lf v - dag.latencyOf v + dag.total (v :: q) := add_le_add_left hle _
      _ = lf v + dag.total q := by rw [total_cons]; abel
      _ ≤ makespan := ih hq.tail

/-- Some path to a terminal takes exactly the time left after the latest finish. -/
theorem Latest.attained (hlf : Latest dag topology.adj makespan lf) (h : dag.Admitted)
    (htop : dag.Sorted topology) {u : ℕ} (hu : u < dag.len) :
    ∃ q, dag.IsPath (u :: q) ∧ (∀ v ∈ (u :: q).getLast?, ∀ w, ¬ dag.Edge v w) ∧
      lf u + dag.total q = makespan := by
  have hnodes : ∀ e ∈ dag.edges, e.2 ∈ topology.order := fun e he =>
    (htop.mem_order _).2 (h.edges_lt e he).2
  have hmem : ∀ v, v ∈ topology.order.reverse ↔ v < dag.len := by
    simpa using htop.mem_order
  -- along the reversed order, from the successors to the task
  apply (htop.sorted.reverse htop.nodup hnodes).induction (P := fun u => ∃ q, dag.IsPath (u :: q) ∧
    (∀ v ∈ (u :: q).getLast?, ∀ w, ¬ dag.Edge v w) ∧ lf u + dag.total q = makespan) _ u
    ((hmem u).2 hu)
  intro u hu ih
  rw [hmem] at hu
  by_cases hterminal : topology.adj u = []
  · refine ⟨[], ⟨List.isChain_singleton u, by simpa using hu⟩, ?_, ?_⟩
    · intro v hv w hedge
      obtain rfl : u = v := by simpa using hv
      exact List.ne_nil_of_mem ((htop.mem_adj u w).2 hedge) hterminal
    · rw [hlf.terminal u hu hterminal, total_nil, add_zero]
  · have hchosen : ∃ v ∈ topology.adj u, lf u = lf v - dag.latencyOf v := by
      obtain ⟨v, hv⟩ := List.exists_mem_of_ne_nil _ hterminal
      have hstep := hlf.step u hu hterminal
      rcases foldl_min_mem ((topology.adj u).map fun v => lf v - dag.latencyOf v) makespan
        with hmin | hmin
      · -- all successors may finish last, and this one takes no time
        refine ⟨v, hv, ?_⟩
        have hle := (foldl_min_le ((topology.adj u).map fun v => lf v - dag.latencyOf v)
          makespan).2 _ (List.mem_map_of_mem hv)
        have hlatest := hlf.le_makespan (h.edge_lt ((htop.mem_adj u v).1 hv)).2
        apply le_antisymm
        · rw [hstep]
          exact hle
        · rw [hstep, hmin]
          exact (sub_le_self _ (h.latencyOf_nonneg v)).trans hlatest
      · obtain ⟨v, hv, heq⟩ := List.mem_map.1 hmin
        exact ⟨v, hv, by rw [hstep, heq]⟩
    obtain ⟨v, hv, heq⟩ := hchosen
    have hedge := (htop.mem_adj u v).1 hv
    obtain ⟨q, hq, hlast, htotal⟩ := ih v (List.mem_map.2 ⟨(u, v), hedge, rfl⟩)
    refine ⟨v :: q, hq.cons hedge hu, ?_, ?_⟩
    · intro w hw
      exact hlast w (by simpa using hw)
    · rw [heq, total_cons, ← htotal]
      abel

end Backward

end FrankenSim.Tropical.TaskDag
