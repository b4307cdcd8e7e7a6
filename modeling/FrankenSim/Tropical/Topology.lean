import FrankenSim.Tropical.TaskDag

/-!
# The topology of a task graph

An admitted graph gets a topological order of all tasks exactly when its edges contain
no cycle.
-/
namespace FrankenSim.Tropical.TaskDag

open Library

variable {K : Type} [AddCommGroup K] [LinearOrder K] (dag : TaskDag K)

def Edge (u v : ℕ) : Prop := (u, v) ∈ dag.edges

/-- What the validation asks for before it looks for cycles. -/
structure Admitted : Prop where
  nodes_le : dag.len ≤ MAX_TASK_DAG_NODES
  edges_le : dag.edges.length ≤ MAX_TASK_DAG_EDGES
  latency_nonneg : ∀ latency ∈ dag.latency, 0 ≤ latency
  edges_lt : ∀ e ∈ dag.edges, e.1 < dag.len ∧ e.2 < dag.len

/-- A topology with all tasks in topological order. -/
structure Sorted (topology : DagTopology) : Prop where
  mem_adj : ∀ u v, v ∈ topology.adj u ↔ dag.Edge u v
  mem_preds : ∀ u v, u ∈ topology.preds v ↔ dag.Edge u v
  nodup : topology.order.Nodup
  mem_order : ∀ v, v ∈ topology.order ↔ v < dag.len
  sorted : TopologicallySorted dag.edges topology.order

variable {dag}

theorem foldl_pushAt {A : Type} (key value : A → ℕ) (l : List A) (table : ℕ → List ℕ) (i : ℕ) :
    l.foldl (fun table a => pushAt table (key a) (value a)) table i =
      table i ++ (l.filter fun a => key a = i).map value := by
  induction l generalizing table with
  | nil => simp
  | cons a l ih =>
    rw [List.foldl_cons, ih, pushAt]
    by_cases h : key a = i
    · subst h
      simp
    · simp [h, Function.update_of_ne (Ne.symm h)]

theorem foldl_count (l : List (ℕ × ℕ)) (d : ℕ → ℕ) (v : ℕ) :
    l.foldl (fun d e => Function.update d e.2 (d e.2 + 1)) d v =
      d v + l.countP fun e => e.2 = v := by
  induction l generalizing d with
  | nil => rfl
  | cons e l ih =>
    rw [List.foldl_cons, ih, List.countP_cons]
    by_cases h : e.2 = v
    · subst h
      simp
      omega
    · simp [h, Function.update_of_ne (Ne.symm h)]

omit [AddCommGroup K] [LinearOrder K] in
theorem validateEdges_ok :
    dag.validateEdges = .ok () ↔ ∀ e ∈ dag.edges, e.1 < dag.len ∧ e.2 < dag.len := by
  rw [validateEdges, forM_ok]
  apply forall₂_congr
  intro e _
  rw [bind_eq_ok_iff]
  simp [refuseWhen_ok]

theorem validateLatencies_ok (h : ∀ latency ∈ dag.latency, 0 ≤ latency) :
    dag.validateLatencies = .ok () := by
  have hnone : dag.latency.findIdx? (fun latency => latency < 0) = none := by
    rw [List.findIdx?_eq_none_iff]
    intro latency hmem
    simpa using h latency hmem
  rw [validateLatencies, hnone]

/-- Admitted graphs are refused exactly when they are cyclic. -/
theorem validatedTopology_spec (h : dag.Admitted) :
    (dag.validatedTopology = .error .cyclic ∧ Cyclic dag.edges) ∨
      ∃ topology, dag.validatedTopology = .ok topology ∧ ¬ Cyclic dag.edges ∧
        dag.Sorted topology := by
  have hnodes : ∀ e ∈ dag.edges, e.1 ∈ List.range dag.len ∧ e.2 ∈ List.range dag.len := by
    simpa using h.edges_lt
  have hadj : ∀ u, dag.edges.foldl (fun adj e => pushAt adj e.1 e.2) (fun _ => []) u =
      (dag.edges.filter fun e => e.1 = u).map Prod.snd := fun u =>
    (foldl_pushAt Prod.fst Prod.snd dag.edges _ u).trans (List.nil_append _)
  have hpreds : ∀ v, dag.edges.foldl (fun preds e => pushAt preds e.2 e.1) (fun _ => []) v =
      (dag.edges.filter fun e => e.2 = v).map Prod.fst := fun v =>
    (foldl_pushAt Prod.snd Prod.fst dag.edges _ v).trans (List.nil_append _)
  have hindegree : ∀ v, dag.edges.foldl (fun d e => Function.update d e.2 (d e.2 + 1))
      (fun _ => 0) v = dag.edges.countP fun e => e.2 = v := fun v =>
    (foldl_count dag.edges _ v).trans (Nat.zero_add _)
  have hlatencies := validateLatencies_ok h.latency_nonneg
  have hedges := validateEdges_ok.2 h.edges_lt
  have hlimits : ¬ MAX_TASK_DAG_NODES < dag.len ∧ ¬ MAX_TASK_DAG_EDGES < dag.edges.length :=
    ⟨by have := h.nodes_le; omega, by have := h.edges_le; omega⟩
  simp only [validatedTopology, refuseWhen, if_neg hlimits.1, if_neg hlimits.2, hlatencies, hedges,
    bind, Except.bind]
  generalize dag.edges.foldl (fun adj e => pushAt adj e.1 e.2) (fun _ => []) = adj at *
  generalize dag.edges.foldl (fun preds e => pushAt preds e.2 e.1) (fun _ => []) = preds at *
  generalize dag.edges.foldl (fun d e => Function.update d e.2 (d e.2 + 1)) (fun _ => 0) =
    indegree at *
  have hstart : Draining dag.edges (List.range dag.len)
      (indegree, ((List.range dag.len).filter fun node => indegree node = 0).reverse) [] := by
    apply draining_start
    · exact List.nodup_reverse.2 (List.nodup_range.filter _)
    · exact hindegree
    · intro v
      simp
  obtain ⟨remaining, hdrained⟩ := hstart.drain hadj (fun e he => (hnodes e he).2)
    (show _ ≤ dag.len + _ by simp)
  have hlength := length_drained List.nodup_range hnodes hdrained
  rw [List.length_range] at hlength
  generalize drain adj dag.len _ [] = order at *
  split_ifs with hne
  · exact Or.inl ⟨rfl, by_contra fun hacyclic => hne (hlength.2 hacyclic)⟩
  · have hnodup : order.Nodup := by simpa using hdrained.nodup
    have hsub : ∀ v ∈ order, v ∈ List.range dag.len := by
      intro v hv
      exact ((hdrained.ready v).1 (List.mem_append_left _ hv)).1
    have hperm := (List.subperm_of_subset hnodup hsub).perm_of_length_le
      (by rw [List.length_range]; exact (not_not.1 hne).ge)
    refine Or.inr ⟨_, rfl, hlength.1 (not_not.1 hne), ?_⟩
    refine ⟨fun u v => ?_, fun u v => ?_, hnodup, fun v => ?_, hdrained.sorted⟩
    · change v ∈ adj u ↔ _
      rw [hadj, Edge]
      simp
    · change u ∈ preds v ↔ _
      rw [hpreds, Edge]
      simp
    · rw [hperm.mem_iff, List.mem_range]

omit [AddCommGroup K] [LinearOrder K] in
theorem validateEdges_error {refusal : TropicalError} (h : dag.validateEdges = .error refusal) :
    ∃ node, refusal = .badEdge node := by
  obtain ⟨e, -, he⟩ := forM_error h
  unfold refuseWhen at he
  by_cases hfrom : dag.len ≤ e.1
  · rw [if_pos hfrom] at he
    cases he
    exact ⟨e.1, rfl⟩
  · rw [if_neg hfrom] at he
    by_cases hto : dag.len ≤ e.2
    · rw [if_pos hto] at he
      cases he
      exact ⟨e.2, rfl⟩
    · rw [if_neg hto] at he
      cases he

/-- Other graphs are refused before the search for cycles. -/
theorem validatedTopology_refused (h : ¬ dag.Admitted) :
    ∃ refusal, dag.validatedTopology = .error refusal ∧ refusal ≠ .cyclic := by
  rw [validatedTopology]
  unfold refuseWhen
  by_cases hnodes : MAX_TASK_DAG_NODES < dag.len
  · exact ⟨_, by rw [if_pos hnodes]; rfl, by simp⟩
  rw [if_neg hnodes]
  by_cases hedges : MAX_TASK_DAG_EDGES < dag.edges.length
  · exact ⟨_, by rw [if_pos hedges]; rfl, by simp⟩
  rw [if_neg hedges]
  cases hlatencies : dag.validateLatencies with
  | error refusal =>
    refine ⟨refusal, rfl, ?_⟩
    rw [validateLatencies] at hlatencies
    split at hlatencies
    · cases hlatencies
      simp
    · cases hlatencies
  | ok u =>
    cases hends : dag.validateEdges with
    | error refusal =>
      obtain ⟨node, rfl⟩ := validateEdges_error hends
      exact ⟨_, rfl, by simp⟩
    | ok u =>
      apply absurd _ h
      refine ⟨not_lt.1 hnodes, not_lt.1 hedges, ?_, validateEdges_ok.1 hends⟩
      intro latency hmem
      rw [validateLatencies] at hlatencies
      split at hlatencies
      · cases hlatencies
      · next hnone =>
        rw [List.findIdx?_eq_none_iff] at hnone
        simpa using hnone latency hmem

end FrankenSim.Tropical.TaskDag
