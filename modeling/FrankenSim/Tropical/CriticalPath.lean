import FrankenSim.Tropical.Paths

/-!
# The critical path

The makespan is the largest total latency of a path from a source to a terminal. A task has
no slack exactly on such paths, and a path that the bounds certify is the only one.
-/
namespace FrankenSim.Tropical.TaskDag

open Library

variable {K : Type} [AddCommGroup K] [LinearOrder K] {dag : TaskDag K}

/-- An analysis says what holds of the paths from sources to terminals. -/
structure Exact (dag : TaskDag K) (cp : CriticalPath K) : Prop where
  path : dag.IsComplete cp.path
  attained : dag.total cp.path = cp.makespan
  longest : ∀ p, dag.IsComplete p → dag.total p ≤ cp.makespan
  slack_length : cp.slack.length = dag.len
  slack_nonneg : ∀ s ∈ cp.slack, 0 ≤ s
  slack_zero : ∀ i s, cp.slack[i]? = some s →
    (s = 0 ↔ ∃ p, dag.IsComplete p ∧ dag.total p = cp.makespan ∧ i ∈ p)
  bounds : cp.makespanLo ≤ cp.makespan ∧ cp.makespan ≤ cp.makespanHi
  unique : cp.pathIsUnique = true →
    ∀ p, dag.IsComplete p → dag.total p = cp.makespan → p = cp.path

section Selection

variable {values : ℕ → K} {nodes : List ℕ}

omit [AddCommGroup K] in
theorem maxBy_spec (values : ℕ → K) {nodes : List ℕ} (h : nodes ≠ []) :
    ∃ sink ∈ nodes, maxBy values nodes = some sink ∧ ∀ v ∈ nodes, values v ≤ values sink := by
  obtain ⟨first, nodes, rfl⟩ := List.exists_cons_of_ne_nil h
  clear h
  rw [maxBy]
  induction nodes using List.reverseRecOn with
  | nil => exact ⟨first, by simp, rfl, by simp⟩
  | append_singleton nodes last ih =>
    obtain ⟨sink, hmem, hfold, hall⟩ := ih
    rw [Option.some.injEq] at hfold
    rw [List.foldl_append, hfold, List.foldl_cons, List.foldl_nil]
    rw [← List.cons_append]
    split_ifs with hlt
    · refine ⟨sink, List.mem_append_left _ hmem, rfl, ?_⟩
      intro v hv
      rcases List.mem_append.1 hv with hv | hv
      · exact hall v hv
      · rw [List.mem_singleton.1 hv]
        exact hlt.le
    · refine ⟨last, by simp, rfl, ?_⟩
      intro v hv
      rcases List.mem_append.1 hv with hv | hv
      · exact (hall v hv).trans (not_lt.1 hlt)
      · rw [List.mem_singleton.1 hv]

theorem maxOf_eq_of_greatest {sink : ℕ} (hmem : sink ∈ nodes) (hnonneg : 0 ≤ values sink)
    (hall : ∀ v ∈ nodes, values v ≤ values sink) : maxOf values nodes = values sink := by
  apply le_antisymm _ (le_maxOf hmem)
  rcases maxOf_mem values nodes with hzero | ⟨v, hv, heq⟩
  · rwa [hzero]
  · rw [heq]
    exact hall v hv

omit [AddCommGroup K] in
/-- The bounds separate the values. -/
theorem beatsAll_lt {s : EarliestFinishes K} {chosen : ℕ} (h : beatsAll s chosen nodes = true)
    (hwithin : ∀ v, v ∈ nodes ∨ v = chosen → s.lower v ≤ s.values v ∧ s.values v ≤ s.upper v)
    {v : ℕ} (hv : v ∈ nodes) (hne : v ≠ chosen) : s.values v < s.values chosen := by
  rw [beatsAll, List.all_eq_true] at h
  have hlt : s.upper v < s.lower chosen := by
    have := h v (List.mem_filter.2 ⟨hv, by simpa using hne⟩)
    simpa using this
  calc s.values v ≤ s.upper v := (hwithin v (Or.inl hv)).2
    _ < s.lower chosen := hlt
    _ ≤ s.values chosen := (hwithin chosen (Or.inr rfl)).1

theorem isChain_of_zip_tail {A : Type} {R : A → A → Prop} {p : List A}
    (h : ∀ pair ∈ p.zip p.tail, R pair.1 pair.2) : p.IsChain R := by
  induction p with
  | nil => exact List.isChain_nil
  | cons a p ih =>
    cases p with
    | nil => exact List.isChain_singleton a
    | cons b p =>
      rw [List.isChain_cons_cons]
      constructor
      · exact h (a, b) (by simp)
      · exact ih fun pair hpair => h pair (List.mem_cons_of_mem _ hpair)

end Selection

section Uniqueness

variable [IsOrderedAddMonoid K] {preds : ℕ → List ℕ} {ef : EarliestFinishes K}

/-- Where every predecessor on the traced path beats the others, no other path from a source
attains the earliest finish. -/
theorem Earliest.traced_unique (hef : Earliest dag preds ef) (h : dag.Admitted)
    (hpreds : ∀ u v, u ∈ preds v ↔ dag.Edge u v) {v : ℕ} {p : List ℕ}
    (htraced : Traced ef.bestPred v p)
    (hbeats : p.IsChain fun a b => ∀ u, dag.Edge u b → u ≠ a → ef.values u < ef.values a)
    {q : List ℕ} (hq : dag.IsPath (q ++ [v])) (hsource : ∀ w ∈ (q ++ [v]).head?, ∀ u, ¬ dag.Edge u w)
    (htotal : dag.total (q ++ [v]) = ef.values v) : q ++ [v] = p := by
  induction htraced generalizing q with
  | @source v hpred =>
    have hv := hq.lt v (by simp)
    rcases List.eq_nil_or_concat q with rfl | ⟨q, u, rfl⟩
    · rfl
    · rw [List.concat_eq_append] at hq
      have hmem := (hpreds u v).2 hq.edge_last
      obtain ⟨best, -, hbest, -⟩ := hef.step v hv (List.ne_nil_of_mem hmem)
      rw [hbest] at hpred
      exact absurd hpred (by simp)
  | @step best v p hpred htraced ih =>
    have hv := hq.lt v (by simp)
    have hstep : preds v ≠ [] := by
      intro hsource
      rw [(hef.source v hv hsource).1] at hpred
      exact absurd hpred (by simp)
    obtain ⟨chosen, hmem, hchosen, hvalue, hall⟩ := hef.step v hv hstep
    obtain rfl : chosen = best := by
      rw [hchosen] at hpred
      exact Option.some.inj hpred
    rcases List.eq_nil_or_concat q with rfl | ⟨q, u, rfl⟩
    · exact absurd ((hpreds chosen v).1 hmem) (hsource v (by simp) chosen)
    · rw [List.concat_eq_append] at hq hsource htotal ⊢
      have hedge := hq.edge_last
      obtain ⟨hq, -⟩ := hq.of_append
      have hhead : dag.total (q ++ [u]) = ef.values chosen := by
        rw [total_append, hvalue, total_cons, total_nil, add_zero] at htotal
        exact add_right_cancel htotal
      have hle := hef.total_le h hpreds hq
      obtain ⟨hbefore, -, hlast⟩ := List.isChain_append.1 hbeats
      -- a predecessor that is not the chosen one finishes too early
      have hu : u = chosen := by
        by_contra hne
        have hlt := hlast chosen (by simp) v (by simp) u hedge hne
        exact absurd (hhead ▸ hle) (not_le.2 hlt)
      subst hu
      rw [ih hbefore hq _ hhead]
      intro w hw
      apply hsource w
      rw [List.head?_append_of_ne_nil _ (by simp)]
      exact hw

/-- The certificate of a traced path: the bounds put all other choices below its own. -/
theorem Earliest.certified {topology : DagTopology} (hef : Earliest dag topology.preds ef)
    (h : dag.Admitted) (htop : dag.Sorted topology) {sink v : ℕ} {p q : List ℕ}
    (htraced : Traced ef.bestPred sink p) (hp : dag.IsPath p)
    (hpairs : (p.zip p.tail).all (fun pair => beatsAll ef pair.1 (topology.preds pair.2)) = true)
    (hsink : v ≠ sink → ef.values v < ef.values sink)
    (hq : dag.IsPath (q ++ [v])) (hsource : ∀ w ∈ (q ++ [v]).head?, ∀ u, ¬ dag.Edge u w)
    (htotal : dag.total (q ++ [v]) = ef.values sink) : q ++ [v] = p := by
  have hend : v = sink := by
    by_contra hne
    have hle := hef.total_le h htop.mem_preds hq
    rw [htotal] at hle
    exact absurd hle (not_le.2 (hsink hne))
  subst hend
  apply hef.traced_unique h htop.mem_preds htraced _ hq hsource htotal
  apply isChain_of_zip_tail
  intro pair hpair u hedge hne
  rw [List.all_eq_true] at hpairs
  apply beatsAll_lt (hpairs pair hpair) _ ((htop.mem_preds u pair.2).2 hedge) hne
  rintro w (hw | rfl)
  · exact hef.within w (h.edge_lt ((htop.mem_preds w pair.2).1 hw)).1
  · exact hef.within _ (hp.lt _ (List.of_mem_zip hpair).1)

end Uniqueness

section Slack

variable [IsOrderedAddMonoid K] {topology : DagTopology} {ef : EarliestFinishes K} {lf : ℕ → K}
  {makespan : K} {u : ℕ}

omit [IsOrderedAddMonoid K] in
/-- The backtracking of the source ends at a source. -/
theorem Earliest.backtrack (hef : Earliest dag topology.preds ef)
    (htop : dag.Sorted topology) {v : ℕ} (hv : v < dag.len) (rest : List ℕ) :
    ∃ p, Traced ef.bestPred v p ∧
      TaskDag.backtrack ef.bestPred dag.len v (v :: rest) = p ++ rest := by
  have hmem := (htop.mem_order v).2 hv
  have hlength : topology.order.length ≤ dag.len := by
    have := (List.subperm_of_subset htop.nodup fun v hv =>
      List.mem_range.2 ((htop.mem_order v).1 hv)).length_le
    rwa [List.length_range] at this
  apply traced_backtrack _ hmem _ rest
  · intro u v hv hpred
    have hlt := (htop.mem_order v).1 hv
    by_cases hsource : topology.preds v = []
    · rw [(hef.source v hlt hsource).1] at hpred
      exact absurd hpred (by simp)
    · obtain ⟨best, hbest, hchosen, -⟩ := hef.step v hlt hsource
      obtain rfl : best = u := by
        rw [hchosen] at hpred
        exact Option.some.inj hpred
      exact htop.sorted.idxOf_lt ((htop.mem_preds best v).1 hbest) hv
  · exact (List.idxOf_lt_length_iff.2 hmem).le.trans hlength

/-- A longest path through a task falls short of the makespan by the slack of the task. -/
theorem exists_through (hef : Earliest dag topology.preds ef)
    (hlf : Latest dag topology.adj makespan lf) (h : dag.Admitted) (htop : dag.Sorted topology)
    (hu : u < dag.len) :
    ∃ p, dag.IsComplete p ∧ u ∈ p ∧ dag.total p + (lf u - ef.values u) = makespan := by
  obtain ⟨p, htraced, -⟩ := hef.backtrack htop hu []
  obtain ⟨hp, hsource, htotal⟩ := hef.traced h htop.mem_preds hu htraced
  obtain ⟨q, rfl⟩ := htraced.ends
  obtain ⟨r, hr, hterminal, hrest⟩ := hlf.attained h htop hu
  refine ⟨q ++ u :: r, ⟨hp.join hr, ?_, ?_, by simp⟩, by simp, ?_⟩
  · intro v hv
    apply hsource v
    rw [List.head?_append] at hv ⊢
    simpa using hv
  · intro v hv
    apply hterminal v
    rw [List.getLast?_append] at hv
    simpa [List.getLast?_cons] using hv
  · rw [total_append, total_cons, total_nil, add_zero] at htotal
    rw [total_append, total_cons, ← add_assoc, htotal, ← hrest]
    abel

/-- No path through a task comes closer to the makespan than its slack. -/
theorem total_add_slack_le (hef : Earliest dag topology.preds ef)
    (hlf : Latest dag topology.adj makespan lf) (h : dag.Admitted) (htop : dag.Sorted topology)
    {p : List ℕ} (hp : dag.IsPath p) (hu : u ∈ p) :
    dag.total p + (lf u - ef.values u) ≤ makespan := by
  obtain ⟨q, r, rfl⟩ := List.append_of_mem hu
  have hq : dag.IsPath (q ++ [u]) := by
    rw [List.append_cons] at hp
    exact hp.of_append.1
  have hfirst := hef.total_le h htop.mem_preds hq
  have hrest := hlf.total_le htop hp.of_append.2
  rw [total_append, total_cons, total_nil, add_zero] at hfirst
  rw [total_append, total_cons, ← add_assoc]
  calc dag.total q + dag.latencyOf u + dag.total r + (lf u - ef.values u)
      ≤ ef.values u + dag.total r + (lf u - ef.values u) :=
        add_le_add_left (add_le_add_left hfirst _) _
    _ = lf u + dag.total r := by abel
    _ ≤ makespan := hrest

/-- Where the makespan is the longest path, slacks are not negative, and there is none on
the paths that attain it. -/
theorem slack_spec (hef : Earliest dag topology.preds ef)
    (hlf : Latest dag topology.adj makespan lf) (h : dag.Admitted) (htop : dag.Sorted topology)
    (hlongest : ∀ p, dag.IsComplete p → dag.total p ≤ makespan) (hu : u < dag.len) :
    0 ≤ lf u - ef.values u ∧ (lf u - ef.values u = 0 ↔
      ∃ p, dag.IsComplete p ∧ dag.total p = makespan ∧ u ∈ p) := by
  obtain ⟨p, hp, hmem, heq⟩ := exists_through hef hlf h htop hu
  have hnonneg : 0 ≤ lf u - ef.values u := by
    have hle := hlongest p hp
    rw [← heq] at hle
    exact (le_add_iff_nonneg_right _).1 hle
  refine ⟨hnonneg, ?_, ?_⟩
  · intro hzero
    rw [hzero, add_zero] at heq
    exact ⟨p, hp, heq, hmem⟩
  · rintro ⟨p, hp, heq, hmem⟩
    have hle := total_add_slack_le hef hlf h htop hp.toIsPath hmem
    rw [heq, add_le_iff_nonpos_right] at hle
    exact le_antisymm hle hnonneg

end Slack

section Analysis

variable {topology : DagTopology}

omit [AddCommGroup K] [LinearOrder K] in
/-- A complete path of a graph with tasks ends at a terminal. -/
theorem IsComplete.ends {dag : TaskDag K} {p : List ℕ} (hp : dag.IsComplete p)
    (hlen : dag.len ≠ 0) : ∃ q v, p = q ++ [v] ∧ v < dag.len ∧ ∀ w, ¬ dag.Edge v w := by
  rcases List.eq_nil_or_concat p with rfl | ⟨q, v, rfl⟩
  · exact absurd rfl (hp.ne_nil hlen)
  · rw [List.concat_eq_append] at hp ⊢
    exact ⟨q, v, rfl, hp.lt v (by simp), hp.terminal v (by simp)⟩

/-- The empty graph. -/
theorem exact_empty (hlen : dag.len = 0) : dag.Exact ⟨0, 0, 0, false, [], []⟩ := by
  constructor
  · exact ⟨⟨List.isChain_nil, by simp⟩, by simp, by simp, fun hne => absurd hlen hne⟩
  · rfl
  · intro p hp
    have hnil : p = [] := by
      apply List.eq_nil_iff_forall_not_mem.2
      intro v hv
      have := hp.lt v hv
      omega
    rw [hnil, total_nil]
  · exact hlen.symm
  · simp
  · simp
  · exact ⟨le_refl _, le_refl _⟩
  · simp

variable [IsOrderedAddMonoid K] [DirectedRounding K]

/-- The analysis of a sorted graph. -/
theorem analyze_exact (h : dag.Admitted) (htop : dag.Sorted topology) :
    ∃ cp, dag.analyze topology = .ok cp ∧ dag.Exact cp := by
  by_cases hlen : dag.len = 0
  · rw [analyze, if_pos hlen]
    exact ⟨_, rfl, exact_empty hlen⟩
  · have hef := earliest h htop
    rw [analyze, if_neg hlen]
    dsimp only
    generalize dag.earliestFinishes topology.preds topology.order = ef at hef ⊢
    have hterminals : ∀ v, v ∈ (List.range dag.len).filter (fun node => (topology.adj node).isEmpty) ↔
        v < dag.len ∧ ∀ w, ¬ dag.Edge v w := by
      intro v
      rw [List.mem_filter, List.mem_range, List.isEmpty_iff, List.eq_nil_iff_forall_not_mem]
      exact and_congr_right fun _ => forall_congr' fun w => not_congr (htop.mem_adj v w)
    generalize (List.range dag.len).filter (fun node => (topology.adj node).isEmpty) = terminals
      at hterminals ⊢
    have hne : terminals ≠ [] := by
      obtain ⟨p, hp, -⟩ := exists_through hef (latest_spec h htop 0) h htop
        (Nat.pos_of_ne_zero hlen)
      obtain ⟨q, v, -, hv⟩ := hp.ends hlen
      exact List.ne_nil_of_mem ((hterminals v).2 hv)
    obtain ⟨sink, hsink, hmax, hgreatest⟩ := maxBy_spec ef.values hne
    obtain ⟨hsinkLt, hsinkTerminal⟩ := (hterminals sink).1 hsink
    have hlf := latest_spec h htop (maxOf ef.values terminals)
    obtain ⟨path, htraced, hback⟩ := hef.backtrack htop hsinkLt []
    obtain ⟨hpath, hsource, htotal⟩ := hef.traced h htop.mem_preds hsinkLt htraced
    rw [List.append_nil] at hback
    rw [hmax]
    dsimp only
    rw [hback]
    have hmakespan := maxOf_eq_of_greatest hsink (hef.nonneg sink hsinkLt) hgreatest
    generalize maxOf ef.values terminals = makespan at hlf hmakespan ⊢
    subst hmakespan
    generalize sweepValues (dag.latest topology.adj (ef.values sink))
      topology.order.reverse (fun _ => ef.values sink) = lf at hlf ⊢
    have hlongest : ∀ p, dag.IsComplete p → dag.total p ≤ ef.values sink := by
      intro p hp
      obtain ⟨q, v, rfl, hv⟩ := hp.ends hlen
      exact (hef.total_le h htop.mem_preds hp.toIsPath).trans (hgreatest v ((hterminals v).2 hv))
    have hslack := fun u hu => slack_spec (u := u) hef hlf h htop hlongest hu
    have hwithin : ∀ v ∈ terminals, ef.lower v ≤ ef.values v ∧ ef.values v ≤ ef.upper v :=
      fun v hv => hef.within v ((hterminals v).1 hv).1
    refine ⟨_, rfl, ?_⟩
    constructor
    · obtain ⟨q, rfl⟩ := htraced.ends
      refine ⟨hpath, hsource, ?_, by simp⟩
      intro v hv
      obtain rfl : sink = v := by simpa using hv
      exact hsinkTerminal
    · exact htotal
    · exact hlongest
    · simp
    · intro s hs
      obtain ⟨u, hu, rfl⟩ := List.mem_map.1 hs
      exact (hslack u (List.mem_range.1 hu)).1
    · intro u s hs
      have hu : u < dag.len := by
        by_contra hge
        simp [hge] at hs
      obtain rfl : lf u - ef.values u = s := by
        rw [List.getElem?_map, List.getElem?_range hu] at hs
        exact Option.some.inj hs
      exact (hslack u hu).2
    · dsimp only
      rw [← maxOf_eq_of_greatest hsink (hef.nonneg sink hsinkLt) hgreatest]
      exact ⟨maxOf_mono fun v hv => (hwithin v hv).1, maxOf_mono fun v hv => (hwithin v hv).2⟩
    · intro hunique p hp heq
      dsimp only at hunique heq ⊢
      rw [Bool.and_eq_true] at hunique
      obtain ⟨hsinkBeats, hpairs⟩ := hunique
      obtain ⟨q, v, rfl, hv, hterminal⟩ := hp.ends hlen
      apply hef.certified h htop htraced hpath hpairs _ hp.toIsPath hp.source heq
      intro hne
      apply beatsAll_lt hsinkBeats _ ((hterminals v).2 ⟨hv, hterminal⟩) hne
      rintro w (hw | rfl)
      · exact hwithin w hw
      · exact hwithin w hsink

end Analysis

end FrankenSim.Tropical.TaskDag
