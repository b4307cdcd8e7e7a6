import FrankenSim.Tropical.CriticalPath

/-!
# What tuning a task gains

Every complete path through a task that is listed for tuning gets shorter with the task,
and all others were shorter already.
-/
namespace FrankenSim.Tropical.TaskDag

open Library

variable {K : Type} [AddCommGroup K] [LinearOrder K] {dag : TaskDag K}

/-- The graph with another latency for one task. -/
def withLatency (dag : TaskDag K) (task : ℕ) (latency : K) : TaskDag K :=
  ⟨dag.latency.set task latency, dag.edges⟩

section Lowered

variable {task : ℕ} {latency : K}

omit [AddCommGroup K] [LinearOrder K] in
@[simp]
theorem len_withLatency : (dag.withLatency task latency).len = dag.len :=
  List.length_set

omit [LinearOrder K] in
theorem latencyOf_withLatency (htask : task < dag.len) (v : ℕ) :
    (dag.withLatency task latency).latencyOf v = if v = task then latency else dag.latencyOf v := by
  rw [latencyOf, latencyOf, withLatency, List.getD_eq_getElem?_getD, List.getD_eq_getElem?_getD]
  by_cases h : v = task
  · subst h
    rw [if_pos rfl, List.getElem?_set_self htask]
    rfl
  · rw [if_neg h, List.getElem?_set_ne (Ne.symm h)]

theorem Admitted.withLatency (h : dag.Admitted) (hlatency : 0 ≤ latency) :
    (dag.withLatency task latency).Admitted := by
  refine ⟨len_withLatency.trans_le h.nodes_le, h.edges_le, ?_, ?_⟩
  · intro other hmem
    rcases List.mem_or_eq_of_mem_set hmem with hmem | rfl
    · exact h.latency_nonneg other hmem
    · exact hlatency
  · intro e he
    rw [len_withLatency]
    exact h.edges_lt e he

omit [AddCommGroup K] [LinearOrder K] in
theorem IsComplete.of_withLatency {p : List ℕ} (hp : (dag.withLatency task latency).IsComplete p) :
    dag.IsComplete p := by
  refine ⟨⟨hp.chain, ?_⟩, hp.source, hp.terminal, ?_⟩
  · intro v hv
    simpa using hp.lt v hv
  · intro hlen
    apply hp.ne_nil
    rwa [len_withLatency]

variable [IsOrderedAddMonoid K]

/-- A path is shorter by what its tasks are faster. -/
theorem total_withLatency (htask : task < dag.len) (hlt : latency < dag.latencyOf task)
    (p : List ℕ) : (dag.withLatency task latency).total p ≤ dag.total p ∧
      (task ∈ p → (dag.withLatency task latency).total p < dag.total p) := by
  induction p with
  | nil => simp
  | cons v p ih =>
    rw [total_cons, total_cons, latencyOf_withLatency htask]
    by_cases hv : v = task
    · subst hv
      rw [if_pos rfl]
      have hless := add_lt_add_of_lt_of_le hlt ih.1
      exact ⟨hless.le, fun _ => hless⟩
    · rw [if_neg hv]
      refine ⟨add_le_add_right ih.1 _, fun hmem => ?_⟩
      apply add_lt_add_right (ih.2 _)
      simpa [Ne.symm hv] using hmem

/-- A faster task on the only critical path lowers the makespan. -/
theorem Exact.lower {cp cp' : CriticalPath K} (h : dag.Exact cp) (hunique : cp.pathIsUnique = true)
    (hmem : task ∈ cp.path) (hlt : latency < dag.latencyOf task)
    (h' : (dag.withLatency task latency).Exact cp') : cp'.makespan < cp.makespan := by
  have htask := h.path.lt task hmem
  have hcomplete := h'.path.of_withLatency
  obtain ⟨hle, hless⟩ := total_withLatency htask hlt cp'.path
  rw [← h'.attained]
  rcases lt_or_eq_of_le (h.longest cp'.path hcomplete) with hshort | hlong
  · exact hle.trans_lt hshort
  · rw [h.unique hunique cp'.path hcomplete hlong] at hless ⊢
    rw [← h.attained]
    exact hless hmem

end Lowered

section Claims

variable [DirectedRounding K]

theorem mem_tuneNext {cp : CriticalPath K} {tasks : List ℕ} {task : ℕ}
    (hcp : dag.criticalPath = .ok cp) (htasks : dag.tuneNext = .ok tasks) (hmem : task ∈ tasks) :
    cp.pathIsUnique = true ∧ task ∈ cp.path ∧ 0 < dag.latencyOf task := by
  rw [tuneNext, hcp] at htasks
  change (if !cp.pathIsUnique then _ else _) = _ at htasks
  split_ifs at htasks with hunique
  · cases htasks
    exact absurd hmem List.not_mem_nil
  · cases htasks
    rw [List.mem_mergeSort, List.mem_filter, decide_eq_true_eq] at hmem
    exact ⟨by simpa using hunique, hmem.1, hmem.2⟩

theorem criticalPath_refused (h : ¬ dag.Admitted) :
    ∃ refusal, dag.criticalPath = .error refusal ∧ refusal ≠ .cyclic := by
  obtain ⟨refusal, herror, hne⟩ := validatedTopology_refused h
  refine ⟨refusal, ?_, hne⟩
  rw [criticalPath, herror]
  rfl

variable [IsOrderedAddMonoid K]

theorem criticalPath_ok (h : dag.Admitted) (hacyclic : ¬ Cyclic dag.edges) :
    ∃ cp, dag.criticalPath = .ok cp ∧ dag.Exact cp := by
  rcases validatedTopology_spec h with ⟨-, hcyclic⟩ | ⟨topology, htopology, -, htop⟩
  · exact absurd hcyclic hacyclic
  · obtain ⟨cp, hcp, hexact⟩ := analyze_exact h htop
    refine ⟨cp, ?_, hexact⟩
    rw [criticalPath, htopology]
    exact hcp

/-- The analysis is exact on the graphs that pass the checks, and the others are refused. -/
theorem criticalPath_exact (dag : TaskDag K) :
    (dag.criticalPath = .error .cyclic ↔ dag.Admitted ∧ Cyclic dag.edges) ∧
      (dag.Admitted → ¬ Cyclic dag.edges → ∃ cp tasks, dag.criticalPath = .ok cp ∧ dag.Exact cp ∧
        dag.tuneNext = .ok tasks ∧ ∀ task ∈ tasks, ∀ latency, 0 ≤ latency →
          latency < dag.latencyOf task → ∃ cp',
            (dag.withLatency task latency).criticalPath = .ok cp' ∧ cp'.makespan < cp.makespan) ∧
      (¬ dag.Admitted → ∃ refusal, dag.criticalPath = .error refusal ∧ refusal ≠ .cyclic) := by
  refine ⟨⟨fun hcyclic => ?_, ?_⟩, fun h hacyclic => ?_, criticalPath_refused⟩
  · by_cases h : dag.Admitted
    · refine ⟨h, ?_⟩
      by_contra hacyclic
      obtain ⟨cp, hcp, -⟩ := criticalPath_ok h hacyclic
      rw [hcp] at hcyclic
      cases hcyclic
    · obtain ⟨refusal, herror, hne⟩ := criticalPath_refused h
      rw [herror, Except.error.injEq] at hcyclic
      exact absurd hcyclic hne
  · rintro ⟨h, hcyclic⟩
    rcases validatedTopology_spec h with ⟨herror, -⟩ | ⟨topology, -, hacyclic, -⟩
    · rw [criticalPath, herror]
      rfl
    · exact absurd hcyclic hacyclic
  · obtain ⟨cp, hcp, hexact⟩ := criticalPath_ok h hacyclic
    have htasks : ∃ tasks, dag.tuneNext = .ok tasks := by
      rw [tuneNext, hcp]
      change ∃ tasks, (if !cp.pathIsUnique then _ else _) = _
      split_ifs
      · exact ⟨_, rfl⟩
      · exact ⟨_, rfl⟩
    obtain ⟨tasks, htasks⟩ := htasks
    refine ⟨cp, tasks, hcp, hexact, htasks, fun task hmem latency hnonneg hlt => ?_⟩
    obtain ⟨hunique, hpath, -⟩ := mem_tuneNext hcp htasks hmem
    obtain ⟨cp', hcp', hexact'⟩ := criticalPath_ok (h.withLatency hnonneg) hacyclic
    exact ⟨cp', hcp', hexact.lower hunique hpath hlt hexact'⟩

end Claims

section Examples

/-- Neighbours at distance one. -/
local instance unitRounding : DirectedRounding ℤ where
  nextDown x := x - 1
  nextUp x := x + 1
  nextDown_le x := by omega
  le_nextUp x := by omega

/-- Two ways from the first task to the last one, and a task without time behind it. -/
def forked : TaskDag ℤ := ⟨[20, 50, 30, 10, 0], [(0, 1), (0, 2), (1, 3), (1, 3), (2, 3), (3, 4)]⟩

theorem criticalPath_exact_forked :
    forked.Admitted ∧ ¬ Cyclic forked.edges ∧ ∃ cp tasks, forked.criticalPath = .ok cp ∧
      forked.Exact cp ∧ forked.tuneNext = .ok tasks ∧ ∀ task ∈ tasks, ∀ latency, 0 ≤ latency →
        latency < forked.latencyOf task → ∃ cp',
          (forked.withLatency task latency).criticalPath = .ok cp' ∧ cp'.makespan < cp.makespan := by
  have h : forked.Admitted := ⟨by decide, by decide, by decide, by decide⟩
  have hacyclic : ¬ Cyclic forked.edges := by
    intro hcyclic
    have herror := (criticalPath_exact forked).1.2 ⟨h, hcyclic⟩
    have hpath : forked.criticalPath =
        .ok ⟨80, 76, 84, true, [0, 1, 3, 4], [0, 0, 20, 0, 0]⟩ := by rfl
    rw [hpath] at herror
    cases herror
  exact ⟨h, hacyclic, (criticalPath_exact forked).2.1 h hacyclic⟩

/-- A graph with too many tasks is refused before its cycle is found. -/
theorem criticalPath_not_cyclic : ∃ dag : TaskDag ℤ, (∀ latency ∈ dag.latency, 0 ≤ latency) ∧
    (∀ e ∈ dag.edges, e.1 < dag.len ∧ e.2 < dag.len) ∧ Cyclic dag.edges ∧
      dag.criticalPath ≠ .error .cyclic := by
  refine ⟨⟨List.replicate 4097 0, [(0, 0)]⟩, ?_, ?_, ?_, ?_⟩
  · intro latency hmem
    exact (List.eq_of_mem_replicate hmem).ge
  · intro e he
    rw [List.mem_singleton.1 he, len, List.length_replicate]
    omega
  · exact ⟨0, Relation.TransGen.single (List.mem_singleton_self _)⟩
  · intro hcyclic
    have hrefused : ¬ Admitted (⟨List.replicate 4097 0, [(0, 0)]⟩ : TaskDag ℤ) := by
      intro h
      have hle := h.nodes_le
      rw [len, List.length_replicate, MAX_TASK_DAG_NODES] at hle
      omega
    obtain ⟨refusal, herror, hne⟩ := criticalPath_refused hrefused
    rw [hcyclic, Except.error.injEq] at herror
    exact hne herror.symm

end Examples

end FrankenSim.Tropical.TaskDag
