import FrankenSim.Library.Extrema
import FrankenSim.Tropical.Topology
import Mathlib.Algebra.Order.Group.Basic
import Mathlib.Algebra.BigOperators.Group.List.Basic

/-!
# Earliest finishes and the paths that attain them

The forward pass gives every task the largest total latency of a path that ends there, and
a predecessor on such a path. Following these predecessors leads back to a source.
-/
namespace FrankenSim.Tropical.TaskDag

open Library

variable {K : Type} [AddCommGroup K] [LinearOrder K] {dag : TaskDag K}

theorem Admitted.latencyOf_nonneg (h : dag.Admitted) (v : ℕ) : 0 ≤ dag.latencyOf v := by
  rw [latencyOf, List.getD_eq_getElem?_getD]
  cases hget : dag.latency[v]? with
  | none => exact le_refl 0
  | some latency => exact h.latency_nonneg latency (List.mem_of_getElem? hget)

theorem Admitted.edge_lt (h : dag.Admitted) {u v : ℕ} (hedge : dag.Edge u v) :
    u < dag.len ∧ v < dag.len :=
  h.edges_lt _ hedge

section Folds

variable {values values' : ℕ → K} {nodes : List ℕ}

theorem maxOf_nonneg (values : ℕ → K) (nodes : List ℕ) : 0 ≤ maxOf values nodes :=
  (le_foldl_max _ _).1

theorem le_maxOf {node : ℕ} (h : node ∈ nodes) : values node ≤ maxOf values nodes :=
  (le_foldl_max _ _).2 _ (List.mem_map_of_mem h)

theorem maxOf_mem (values : ℕ → K) (nodes : List ℕ) :
    maxOf values nodes = 0 ∨ ∃ node ∈ nodes, maxOf values nodes = values node := by
  rcases foldl_max_mem (nodes.map values) 0 with h | h
  · exact Or.inl h
  · obtain ⟨node, hmem, heq⟩ := List.mem_map.1 h
    exact Or.inr ⟨node, hmem, heq.symm⟩

theorem maxOf_mono (h : ∀ node ∈ nodes, values node ≤ values' node) :
    maxOf values nodes ≤ maxOf values' nodes := by
  rcases maxOf_mem values nodes with hzero | ⟨node, hmem, heq⟩
  · rw [hzero]
    exact maxOf_nonneg _ _
  · rw [heq]
    exact (h node hmem).trans (le_maxOf hmem)

theorem maxOf_congr (h : ∀ node ∈ nodes, values node = values' node) :
    maxOf values nodes = maxOf values' nodes := by
  rw [maxOf, maxOf, List.map_congr_left h]

omit [AddCommGroup K] in
/-- The scan finds the best predecessor. -/
theorem bestOf_spec (values : ℕ → K) (nodes : List ℕ) :
    (nodes = [] ∧ bestOf values nodes = (⊥, none)) ∨
      ∃ best ∈ nodes, bestOf values nodes = (↑(values best), some best) ∧
        ∀ node ∈ nodes, values node ≤ values best := by
  induction nodes using List.reverseRecOn with
  | nil => exact Or.inl ⟨rfl, rfl⟩
  | append_singleton nodes last ih =>
    right
    rw [bestOf, List.foldl_append, List.foldl_cons, List.foldl_nil]
    rcases ih with ⟨rfl, hnone⟩ | ⟨best, hmem, hbest, hall⟩
    · refine ⟨last, by simp, ?_, by simp⟩
      rw [List.foldl_nil, if_pos (WithBot.bot_lt_coe _)]
    · rw [bestOf] at hbest
      rw [hbest]
      dsimp only
      split_ifs with hlt
      · rw [WithBot.coe_lt_coe] at hlt
        refine ⟨last, by simp, rfl, ?_⟩
        intro node hnode
        rcases List.mem_append.1 hnode with hnode | hnode
        · exact (hall node hnode).trans hlt.le
        · rw [List.mem_singleton.1 hnode]
      · rw [WithBot.coe_lt_coe, not_lt] at hlt
        refine ⟨best, by simp [hmem], rfl, ?_⟩
        intro node hnode
        rcases List.mem_append.1 hnode with hnode | hnode
        · exact hall node hnode
        · rwa [List.mem_singleton.1 hnode]

/-- Without a predecessor, and from `0` on, the best is the greatest. -/
theorem maxOf_eq_bestOf (values : ℕ → K) (nodes : List ℕ) :
    max ((bestOf values nodes).1.unbotD 0) 0 = maxOf values nodes := by
  rcases bestOf_spec values nodes with ⟨rfl, hbest⟩ | ⟨best, hmem, hbest, hall⟩
  · rw [hbest]
    exact max_self 0
  · rw [hbest]
    dsimp only
    rw [WithBot.unbotD_coe]
    apply le_antisymm
    · exact max_le (le_maxOf hmem) (maxOf_nonneg _ _)
    · rcases maxOf_mem values nodes with hzero | ⟨node, hnode, heq⟩
      · rw [hzero]
        exact le_max_right _ _
      · rw [heq]
        exact (hall node hnode).trans (le_max_left _ _)

omit [AddCommGroup K] in
theorem bestOf_congr (h : ∀ node ∈ nodes, values node = values' node) :
    bestOf values nodes = bestOf values' nodes := by
  induction nodes using List.reverseRecOn with
  | nil => rfl
  | append_singleton nodes last ih =>
    have hinit := ih fun node hnode => h node (List.mem_append_left _ hnode)
    rw [bestOf, bestOf] at hinit
    rw [bestOf, bestOf, List.foldl_append, List.foldl_append, hinit]
    simp only [List.foldl_cons, List.foldl_nil, h last (by simp)]

end Folds

section Pass

variable [DirectedRounding K]

/-- The four values of a task. -/
def packed (s : EarliestFinishes K) (node : ℕ) : K × K × K × Option ℕ :=
  (s.values node, s.lower node, s.upper node, s.bestPred node)

/-- The four values of a task from those of its predecessors. -/
def finishOf (dag : TaskDag K) (preds : ℕ → List ℕ) (s : ℕ → K × K × K × Option ℕ) (node : ℕ) :
    K × K × K × Option ℕ :=
  let best := bestOf (fun p => (s p).1) (preds node)
  (max (best.1.unbotD 0) 0 + dag.latencyOf node,
    nextDown (maxOf (fun p => (s p).2.1) (preds node) + dag.latencyOf node),
    nextUp (maxOf (fun p => (s p).2.2.1) (preds node) + dag.latencyOf node), best.2)

theorem packed_earliestFinishes (preds : ℕ → List ℕ) (order : List ℕ) (s : EarliestFinishes K) :
    packed (order.foldl (dag.finish preds) s) = sweepValues (finishOf dag preds) order (packed s) := by
  induction order generalizing s with
  | nil => rfl
  | cons node order ih =>
    rw [List.foldl_cons, ih]
    change _ = sweepValues _ order (Function.update (packed s) node (finishOf dag preds (packed s) node))
    congr 1
    funext v
    by_cases hv : v = node
    · subst hv
      simp [packed, finish, finishOf]
    · simp [packed, finish, Function.update_of_ne hv]

/-- What the forward pass computes: every task from its predecessors. -/
structure Earliest (dag : TaskDag K) (preds : ℕ → List ℕ) (ef : EarliestFinishes K) : Prop where
  source : ∀ v < dag.len, preds v = [] → ef.bestPred v = none ∧ ef.values v = dag.latencyOf v
  step : ∀ v < dag.len, preds v ≠ [] → ∃ best ∈ preds v, ef.bestPred v = some best ∧
    ef.values v = ef.values best + dag.latencyOf v ∧ ∀ u ∈ preds v, ef.values u ≤ ef.values best
  nonneg : ∀ v < dag.len, 0 ≤ ef.values v
  within : ∀ v < dag.len, ef.lower v ≤ ef.values v ∧ ef.values v ≤ ef.upper v

variable {topology : DagTopology}

theorem finishOf_congr {preds : ℕ → List ℕ} {s s' : ℕ → K × K × K × Option ℕ} {node : ℕ}
    (h : ∀ p ∈ preds node, s p = s' p) : finishOf dag preds s node = finishOf dag preds s' node := by
  have hbest : bestOf (fun p => (s p).1) (preds node) = bestOf (fun p => (s' p).1) (preds node) :=
    bestOf_congr fun p hp => by rw [h p hp]
  have hlower : maxOf (fun p => (s p).2.1) (preds node) = maxOf (fun p => (s' p).2.1) (preds node) :=
    maxOf_congr fun p hp => by rw [h p hp]
  have hupper : maxOf (fun p => (s p).2.2.1) (preds node) =
      maxOf (fun p => (s' p).2.2.1) (preds node) :=
    maxOf_congr fun p hp => by rw [h p hp]
  rw [finishOf, finishOf, hbest, hlower, hupper]

/-- Every task has what the final values of its predecessors give. -/
theorem finishOf_fixed (htop : dag.Sorted topology) {v : ℕ} (hv : v < dag.len) :
    packed (dag.earliestFinishes topology.preds topology.order) v =
      finishOf dag topology.preds (packed (dag.earliestFinishes topology.preds topology.order)) v := by
  obtain ⟨before, after, horder, -⟩ :=
    List.eq_append_cons_of_mem ((htop.mem_order v).2 hv)
  have hnodup := htop.nodup
  have hbefore := htop.sorted before v after horder
  rw [earliestFinishes, packed_earliestFinishes]
  rw [horder] at hnodup ⊢
  obtain ⟨s', hvalue, -, hs'⟩ := sweepValues_split (f := finishOf dag topology.preds) hnodup
  rw [hvalue]
  apply finishOf_congr
  intro p hp
  exact hs' p (hbefore p ((htop.mem_preds p v).1 hp))

end Pass

section Ordered

variable [IsOrderedAddMonoid K] [DirectedRounding K] {topology : DagTopology}

theorem earliest (h : dag.Admitted) (htop : dag.Sorted topology) :
    Earliest dag topology.preds (dag.earliestFinishes topology.preds topology.order) := by
  have hfixed := fun v (hv : v < dag.len) => finishOf_fixed htop hv
  generalize dag.earliestFinishes topology.preds topology.order = ef at hfixed ⊢
  have hvalue : ∀ v < dag.len, ef.values v =
      max ((bestOf ef.values (topology.preds v)).1.unbotD 0) 0 + dag.latencyOf v :=
    fun v hv => congrArg (·.1) (hfixed v hv)
  have hlower : ∀ v < dag.len, ef.lower v =
      nextDown (maxOf ef.lower (topology.preds v) + dag.latencyOf v) :=
    fun v hv => congrArg (·.2.1) (hfixed v hv)
  have hupper : ∀ v < dag.len, ef.upper v =
      nextUp (maxOf ef.upper (topology.preds v) + dag.latencyOf v) :=
    fun v hv => congrArg (·.2.2.1) (hfixed v hv)
  have hpred : ∀ v < dag.len, ef.bestPred v = (bestOf ef.values (topology.preds v)).2 :=
    fun v hv => congrArg (·.2.2.2) (hfixed v hv)
  have hedge : ∀ u v, u ∈ topology.preds v → u < dag.len := fun u v hu =>
    (h.edge_lt ((htop.mem_preds u v).1 hu)).1
  have hnonneg : ∀ v < dag.len, 0 ≤ ef.values v := by
    intro v hv
    rw [hvalue v hv]
    exact add_nonneg (le_max_right _ _) (h.latencyOf_nonneg v)
  have hmax : ∀ v < dag.len, ef.values v = maxOf ef.values (topology.preds v) + dag.latencyOf v := by
    intro v hv
    rw [hvalue v hv, maxOf_eq_bestOf]
  refine ⟨fun v hv hsource => ?_, fun v hv hstep => ?_, hnonneg, fun v hv => ?_⟩
  · rw [hpred v hv, hvalue v hv, hsource]
    simp [bestOf]
  · rcases bestOf_spec ef.values (topology.preds v) with ⟨hsource, -⟩ | ⟨best, hmem, hbest, hall⟩
    · exact absurd hsource hstep
    · refine ⟨best, hmem, by rw [hpred v hv, hbest], ?_, hall⟩
      rw [hvalue v hv, hbest]
      dsimp only
      rw [WithBot.unbotD_coe, max_eq_left (hnonneg best (hedge best v hmem))]
  · -- along the order, from the predecessors to the task
    apply htop.sorted.induction (P := fun v => ef.lower v ≤ ef.values v ∧ ef.values v ≤ ef.upper v) _ v
      ((htop.mem_order v).2 hv)
    intro v hv ih
    have hlt := (htop.mem_order v).1 hv
    rw [hlower v hlt, hupper v hlt, hmax v hlt]
    constructor
    · apply (nextDown_le _).trans
      apply add_le_add_left
      exact maxOf_mono fun u hu => (ih u ((htop.mem_preds u v).1 hu)).1
    · apply le_trans _ (le_nextUp _)
      apply add_le_add_left
      exact maxOf_mono fun u hu => (ih u ((htop.mem_preds u v).1 hu)).2

end Ordered

end FrankenSim.Tropical.TaskDag
