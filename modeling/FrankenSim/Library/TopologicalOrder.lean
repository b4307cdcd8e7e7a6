import Mathlib.Data.Fintype.Card
import Mathlib.Data.List.Count
import Mathlib.Data.List.Nodup
import Mathlib.Logic.Function.Basic
import Mathlib.Logic.Relation
import Mathlib.Order.WellFounded
import Mathlib.Tactic

/-!
# Topological orders by counting predecessors, and sweeps over them

A sweep computes the value of every node from the values of the nodes it depends on,
which come before it in the order. In the end every node has the value that the
computation gives on the final values.

For the order, nodes without an open predecessor wait on a stack. Whoever leaves it closes
its edges, and a node whose last edge is closed is pushed. The nodes that leave are in
topological order, and all of them leave exactly when there is no cycle.
-/
namespace FrankenSim.Library

section Sweeps

variable {V S : Type*} [DecidableEq V] {f : (V → S) → V → S} {order : List V} {s : V → S} {v : V}

def sweepValues (f : (V → S) → V → S) (order : List V) (s : V → S) : V → S :=
  order.foldl (fun s v => Function.update s v (f s v)) s

theorem sweepValues_append (order order' : List V) :
    sweepValues f (order ++ order') s = sweepValues f order' (sweepValues f order s) :=
  List.foldl_append

theorem sweepValues_of_notMem (h : v ∉ order) : sweepValues f order s v = s v := by
  induction order generalizing s with
  | nil => rfl
  | cons w order ih =>
    rw [List.mem_cons, not_or] at h
    change sweepValues f order (Function.update s w (f s w)) v = s v
    rw [ih h.2, Function.update_of_ne h.1]

/-- The value of a node, computed from the final values of the nodes before it. -/
theorem sweepValues_split {before after : List V} (hnodup : (before ++ v :: after).Nodup) :
    ∃ s', sweepValues f (before ++ v :: after) s v = f s' v ∧ s' v = s v ∧
      ∀ u ∈ before, s' u = sweepValues f (before ++ v :: after) s u := by
  rw [List.nodup_append] at hnodup
  obtain ⟨-, hafter, hapart⟩ := hnodup
  have hv : v ∉ before := fun h => hapart v h v List.mem_cons_self rfl
  refine ⟨sweepValues f before s, ?_, sweepValues_of_notMem hv, ?_⟩
  · rw [sweepValues_append]
    change sweepValues f after (Function.update _ v _) v = _
    rw [sweepValues_of_notMem (List.nodup_cons.1 hafter).1, Function.update_self]
  · intro u hu
    have hlater : u ∉ v :: after := fun h => hapart u hu u h rfl
    rw [sweepValues_append, sweepValues_of_notMem hlater]

end Sweeps

variable {V : Type*} [DecidableEq V]

/-- The sources of the edges into every node come before it. -/
def TopologicallySorted (edges : List (V × V)) (order : List V) : Prop :=
  ∀ before v after, order = before ++ v :: after → ∀ u, (u, v) ∈ edges → u ∈ before

def Cyclic (edges : List (V × V)) : Prop :=
  ∃ v, Relation.TransGen (fun u w => (u, w) ∈ edges) v v

/-- One edge into `v` is closed. -/
def release (s : (V → ℕ) × List V) (v : V) : (V → ℕ) × List V :=
  (Function.update s.1 v (s.1 v - 1), if s.1 v - 1 = 0 then v :: s.2 else s.2)

/-- The loop over the stack. The fuel is the number of nodes. -/
def drain (adj : V → List V) : ℕ → (V → ℕ) × List V → List V → List V
  | 0, _, order => order
  | _ + 1, (_, []), order => order
  | fuel + 1, (indegree, node :: queue), order =>
    drain adj fuel ((adj node).foldl release (indegree, queue)) (order ++ [node])

section Release

/-- Closing edges counts them down and pushes the nodes that were reached last. -/
theorem foldl_release (targets : List V) {indegree : V → ℕ} (queue : List V)
    (h : ∀ v, targets.count v ≤ indegree v) :
    (∀ v, (targets.foldl release (indegree, queue)).1 v = indegree v - targets.count v) ∧
      ∃ pushed : List V, (targets.foldl release (indegree, queue)).2 = pushed ++ queue ∧
        pushed.Nodup ∧ ∀ v, v ∈ pushed ↔ v ∈ targets ∧ indegree v = targets.count v := by
  induction targets generalizing indegree queue with
  | nil => exact ⟨fun v => rfl, [], rfl, List.nodup_nil, by simp⟩
  | cons t targets ih =>
    have ht := h t
    rw [List.count_cons_self] at ht
    have hstep : ∀ v, targets.count v ≤ Function.update indegree t (indegree t - 1) v := by
      intro v
      by_cases hv : v = t
      · subst hv
        rw [Function.update_self]
        omega
      · rw [Function.update_of_ne hv]
        have := h v
        rwa [List.count_cons_of_ne (Ne.symm hv)] at this
    obtain ⟨hcount, pushed, hpushed, hnodup, hmem⟩ :=
      ih (if indegree t - 1 = 0 then t :: queue else queue) hstep
    rw [List.foldl_cons, release]
    dsimp only
    refine ⟨fun v => ?_, ?_⟩
    · rw [hcount]
      by_cases hv : v = t
      · subst hv
        rw [Function.update_self, List.count_cons_self]
        omega
      · rw [Function.update_of_ne hv, List.count_cons_of_ne (Ne.symm hv)]
    · have hother : ∀ v, v ≠ t → (v ∈ pushed ↔ v ∈ t :: targets ∧
          indegree v = (t :: targets).count v) := by
        intro v hv
        rw [hmem, Function.update_of_ne hv, List.count_cons_of_ne (Ne.symm hv), List.mem_cons]
        simp [hv]
      by_cases hlast : indegree t - 1 = 0
      · have hnone : targets.count t = 0 := by omega
        have hnot : t ∉ targets := List.count_eq_zero.1 hnone
        have hfresh : t ∉ pushed := fun ht => hnot ((hmem t).1 ht).1
        refine ⟨pushed ++ [t], ?_, ?_, fun v => ?_⟩
        · rw [if_pos hlast] at hpushed ⊢
          rw [hpushed, List.append_assoc, List.singleton_append]
        · simp [List.nodup_append, hnodup]
          rintro v hv rfl
          exact hfresh hv
        · by_cases hv : v = t
          · subst hv
            simp [hnone]
            omega
          · simp [hother v hv, hv]
      · refine ⟨pushed, ?_, hnodup, fun v => ?_⟩
        · rw [if_neg hlast] at hpushed ⊢
          exact hpushed
        · by_cases hv : v = t
          · subst hv
            rw [hmem, Function.update_self, List.count_cons_self]
            simp only [List.mem_cons_self, true_and]
            constructor
            · omega
            · intro heq
              refine ⟨?_, by omega⟩
              by_contra hnot
              have := List.count_eq_zero.2 hnot
              omega
          · exact hother v hv

end Release

section Drain

variable {edges : List (V × V)} {adj : V → List V} {nodes : List V}

/-- Open edges into a node: their source has not left. -/
def openEdges (edges : List (V × V)) (order : List V) (v : V) : ℕ :=
  edges.countP fun e => e.2 = v ∧ e.1 ∉ order

/-- What holds between two turns of the loop. -/
structure Draining (edges : List (V × V)) (nodes : List V) (s : (V → ℕ) × List V)
    (order : List V) : Prop where
  nodup : (order ++ s.2).Nodup
  indegree : ∀ v, s.1 v = openEdges edges order v
  ready : ∀ v, v ∈ order ++ s.2 ↔ v ∈ nodes ∧ s.1 v = 0
  sorted : TopologicallySorted edges order

theorem openEdges_eq_zero {order : List V} {v : V} :
    openEdges edges order v = 0 ↔ ∀ u, (u, v) ∈ edges → u ∈ order := by
  rw [openEdges, List.countP_eq_zero]
  constructor
  · intro h u hu
    by_contra hnot
    exact h (u, v) hu (by simp [hnot])
  · rintro h ⟨u, w⟩ hmem
    simp only [decide_eq_true_eq, not_and, not_not]
    rintro rfl
    exact h u hmem

/-- The edges that a leaving node closes. -/
theorem openEdges_concat (hadj : ∀ u, adj u = (edges.filter fun e => e.1 = u).map Prod.snd)
    {order : List V} {node : V} (hnode : node ∉ order) (v : V) :
    openEdges edges order v = openEdges edges (order ++ [node]) v + (adj node).count v := by
  rw [hadj, openEdges, openEdges, List.count, List.countP_map, List.countP_filter]
  clear hadj
  induction edges with
  | nil => rfl
  | cons e edges ih =>
    rw [List.countP_cons, List.countP_cons, List.countP_cons, ih]
    by_cases hv : e.2 = v
    · by_cases hsource : e.1 = node
      · simp [hv, hsource, hnode]
        omega
      · simp [hv, hsource]
        omega
    · simp [hv]

/-- A node leaves. -/
theorem Draining.step (hadj : ∀ u, adj u = (edges.filter fun e => e.1 = u).map Prod.snd)
    (hnodes : ∀ e ∈ edges, e.2 ∈ nodes) {indegree : V → ℕ} {node : V} {queue order : List V}
    (h : Draining edges nodes (indegree, node :: queue) order) :
    Draining edges nodes ((adj node).foldl release (indegree, queue)) (order ++ [node]) := by
  have hnode : node ∉ order := by
    have hnodup := h.nodup
    rw [List.nodup_append] at hnodup
    exact fun hmem => hnodup.2.2 node hmem node List.mem_cons_self rfl
  have hconcat := openEdges_concat hadj hnode
  have hindegree : ∀ v, indegree v = openEdges edges order v := h.indegree
  have hle : ∀ v, (adj node).count v ≤ indegree v := by
    intro v
    rw [hindegree v, hconcat v]
    omega
  obtain ⟨hcount, pushed, hpushed, hnodup, hmem⟩ := foldl_release (adj node) queue hle
  have hopen : ∀ v, indegree v - (adj node).count v = openEdges edges (order ++ [node]) v := by
    intro v
    rw [hindegree v, hconcat v]
    omega
  have htarget : ∀ v ∈ adj node, v ∈ nodes := by
    intro v hv
    rw [hadj, List.mem_map] at hv
    obtain ⟨e, he, rfl⟩ := hv
    exact hnodes e (List.mem_of_mem_filter he)
  have hpositive : ∀ v ∈ adj node, 0 < (adj node).count v := fun v hv => List.count_pos_iff.2 hv
  have hready : ∀ v, v ∈ order ++ node :: queue ↔ v ∈ nodes ∧ indegree v = 0 := h.ready
  refine ⟨?_, fun v => ?_, fun v => ?_, ?_⟩
  · rw [hpushed]
    have hperm : (order ++ [node] ++ (pushed ++ queue)).Perm (pushed ++ (order ++ node :: queue)) := by
      have hcomm := List.perm_append_comm_assoc (order ++ [node]) pushed queue
      simpa using hcomm
    rw [hperm.nodup_iff, List.nodup_append]
    refine ⟨hnodup, h.nodup, ?_⟩
    rintro v hv _ hw rfl
    obtain ⟨hv, heq⟩ := (hmem v).1 hv
    have hcounted := hpositive v hv
    have hzero := ((hready v).1 hw).2
    omega
  · rw [hcount, hopen]
  · have hold := hready v
    rw [hpushed, hcount]
    simp only [List.mem_append, List.mem_cons, List.not_mem_nil, or_false] at hold ⊢
    constructor
    · intro hv
      by_cases hin : v ∈ pushed
      · obtain ⟨hv, heq⟩ := (hmem v).1 hin
        exact ⟨htarget v hv, by omega⟩
      · obtain ⟨hv, hzero⟩ := hold.1 (by tauto)
        exact ⟨hv, by omega⟩
    · rintro ⟨hv, hzero⟩
      have hcounted := hle v
      by_cases hfirst : indegree v = 0
      · have := hold.2 ⟨hv, hfirst⟩
        tauto
      · have hin : v ∈ adj node := List.count_pos_iff.1 (by omega)
        exact Or.inr (Or.inl ((hmem v).2 ⟨hin, by omega⟩))
  · intro before v after heq u hu
    rcases List.eq_nil_or_concat after with rfl | ⟨after, last, rfl⟩
    · obtain ⟨rfl, hlast⟩ := List.append_inj' heq rfl
      obtain rfl := List.singleton_inj.1 hlast
      have hzero := ((hready node).1 (by simp)).2
      rw [hindegree, openEdges_eq_zero] at hzero
      exact hzero u hu
    · rw [List.concat_eq_append, ← List.cons_append, ← List.append_assoc] at heq
      obtain ⟨horder, -⟩ := List.append_inj' heq rfl
      exact h.sorted before v after horder u hu

/-- The loop empties the stack. -/
theorem Draining.drain (hadj : ∀ u, adj u = (edges.filter fun e => e.1 = u).map Prod.snd)
    (hnodes : ∀ e ∈ edges, e.2 ∈ nodes) {fuel : ℕ} {s : (V → ℕ) × List V} {order : List V}
    (h : Draining edges nodes s order) (hfuel : nodes.length ≤ fuel + order.length) :
    ∃ indegree, Draining edges nodes (indegree, []) (Library.drain adj fuel s order) := by
  induction fuel generalizing s order with
  | zero =>
    obtain ⟨indegree, queue⟩ := s
    have hlength := (List.subperm_of_subset h.nodup fun v hv => ((h.ready v).1 hv).1).length_le
    have hempty : queue = [] := by
      rw [List.length_append] at hlength
      exact List.eq_nil_of_length_eq_zero (by simp only at hlength; omega)
    subst hempty
    exact ⟨indegree, h⟩
  | succ fuel ih =>
    obtain ⟨indegree, queue⟩ := s
    cases queue with
    | nil => exact ⟨indegree, h⟩
    | cons node queue =>
      rw [Library.drain]
      apply ih (h.step hadj hnodes)
      rw [List.length_append, List.length_singleton]
      omega

theorem draining_start {indegree : V → ℕ} {queue : List V} (hnodup : queue.Nodup)
    (hindegree : ∀ v, indegree v = edges.countP fun e => e.2 = v)
    (hqueue : ∀ v, v ∈ queue ↔ v ∈ nodes ∧ indegree v = 0) :
    Draining edges nodes (indegree, queue) [] := by
  refine ⟨hnodup, fun v => ?_, hqueue, ?_⟩
  · simp [hindegree, openEdges]
  · intro before v after heq
    simp at heq

end Drain

section Cycles

variable {edges : List (V × V)} {nodes : List V}

/-- Sources come earlier. -/
theorem TopologicallySorted.idxOf_lt {order : List V} (h : TopologicallySorted edges order)
    {u v : V} (hedge : (u, v) ∈ edges) (hv : v ∈ order) :
    u ∈ order ∧ order.idxOf u < order.idxOf v := by
  obtain ⟨before, after, rfl, hfirst⟩ := List.eq_append_cons_of_mem hv
  have hu := h before v after rfl u hedge
  refine ⟨List.mem_append_left _ hu, ?_⟩
  rw [List.idxOf_append_of_mem hu, List.idxOf_append_of_notMem hfirst, List.idxOf_cons_self]
  have := List.idxOf_lt_length_iff.2 hu
  omega

/-- What the sources of all edges into a node pass on to it holds everywhere. -/
theorem TopologicallySorted.induction {order : List V} (h : TopologicallySorted edges order)
    {P : V → Prop} (step : ∀ v ∈ order, (∀ u, (u, v) ∈ edges → P u) → P v) :
    ∀ v ∈ order, P v := by
  intro v hv
  induction hrank : order.idxOf v using Nat.strong_induction_on generalizing v with
  | _ rank ih =>
    apply step v hv
    intro u hu
    obtain ⟨hmem, hlt⟩ := h.idxOf_lt hu hv
    exact ih _ (hrank ▸ hlt) u hmem rfl

/-- The reversed order sorts the reversed edges. -/
theorem TopologicallySorted.reverse {order : List V} (h : TopologicallySorted edges order)
    (hnodup : order.Nodup) (hnodes : ∀ e ∈ edges, e.2 ∈ order) :
    TopologicallySorted (edges.map Prod.swap) order.reverse := by
  intro before v after heq u hu
  rw [List.mem_map] at hu
  obtain ⟨e, hedge, hswap⟩ := hu
  obtain rfl : e = (v, u) := by rw [← e.swap_swap, hswap, Prod.swap_prod_mk]
  have horder : order = after.reverse ++ v :: before.reverse := by
    rw [← order.reverse_reverse, heq]
    simp
  subst horder
  have hlt := (h.idxOf_lt hedge (hnodes _ hedge)).2
  have hmem : u ∈ after.reverse ++ v :: before.reverse := hnodes _ hedge
  rw [List.nodup_append] at hnodup
  have hv : v ∉ after.reverse := fun hmem => hnodup.2.2 v hmem v List.mem_cons_self rfl
  rw [List.mem_append, List.mem_cons] at hmem
  rcases hmem with hafter | rfl | hbefore
  · rw [List.idxOf_append_of_notMem hv, List.idxOf_append_of_mem hafter] at hlt
    have := List.idxOf_lt_length_iff.2 hafter
    omega
  · exact absurd hlt (lt_irrefl _)
  · exact List.mem_reverse.1 hbefore

theorem not_cyclic_of_sorted {order : List V} (h : TopologicallySorted edges order)
    (hnodes : ∀ e ∈ edges, e.2 ∈ order) : ¬ Cyclic edges := by
  have hedge : ∀ {u v}, (u, v) ∈ edges → order.idxOf u < order.idxOf v := fun he =>
    (h.idxOf_lt he (hnodes _ he)).2
  rintro ⟨v, hcycle⟩
  have hlt : ∀ {w}, Relation.TransGen (fun u w => (u, w) ∈ edges) v w →
      order.idxOf v < order.idxOf w := by
    intro w hpath
    induction hpath with
    | single he => exact hedge he
    | tail _ he ih => exact ih.trans (hedge he)
  exact absurd (hlt hcycle) (lt_irrefl _)

/-- All nodes leave exactly when there is no cycle. -/
theorem length_drained (hnodup : nodes.Nodup) (hnodes : ∀ e ∈ edges, e.1 ∈ nodes ∧ e.2 ∈ nodes)
    {indegree : V → ℕ} {order : List V} (h : Draining edges nodes (indegree, []) order) :
    order.length = nodes.length ↔ ¬ Cyclic edges := by
  have horder : order.Nodup := by simpa using h.nodup
  have hready : ∀ v, v ∈ order ↔ v ∈ nodes ∧ indegree v = 0 := by simpa using h.ready
  have hsub : ∀ v ∈ order, v ∈ nodes := fun v hv => ((hready v).1 hv).1
  constructor
  · intro hlength
    have hperm := (List.subperm_of_subset horder hsub).perm_of_length_le hlength.ge
    apply not_cyclic_of_sorted h.sorted
    exact fun e he => hperm.mem_iff.2 (hnodes e he).2
  · intro hacyclic
    by_contra hne
    have hleft : ∃ v ∈ nodes, v ∉ order := by
      by_contra hall
      push Not at hall
      have hle := (List.subperm_of_subset hnodup hall).length_le
      have hge := (List.subperm_of_subset horder hsub).length_le
      omega
    -- a node that is left and reached from no other one that is left
    let reach : {v // v ∈ nodes} → {v // v ∈ nodes} → Prop := fun u w =>
      Relation.TransGen (fun u w => (u, w) ∈ edges) u.1 w.1
    have : IsTrans _ reach := ⟨fun _ _ _ => Relation.TransGen.trans⟩
    have : Std.Irrefl reach := ⟨fun v hv => hacyclic ⟨v.1, hv⟩⟩
    have hfinite : Finite {v // v ∈ nodes} := (List.finite_toSet nodes).to_subtype
    have hwf : WellFounded reach := Finite.wellFounded_of_trans_of_irrefl reach
    obtain ⟨v, hv, hvleft⟩ := hleft
    obtain ⟨w, hw, hmin⟩ := hwf.has_min {w | w.1 ∉ order} ⟨⟨v, hv⟩, hvleft⟩
    have hpositive : indegree w.1 ≠ 0 := fun hzero => hw ((hready w.1).2 ⟨w.2, hzero⟩)
    have hindegree : indegree w.1 = openEdges edges order w.1 := h.indegree w.1
    rw [hindegree, Ne, openEdges_eq_zero] at hpositive
    push Not at hpositive
    obtain ⟨u, hedge, hu⟩ := hpositive
    exact hmin ⟨u, (hnodes _ hedge).1⟩ hu (Relation.TransGen.single hedge)

end Cycles

end FrankenSim.Library
