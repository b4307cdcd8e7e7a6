import FrankenSim.Recompute.Soundness

/-!
# Commits of burns and of plans

A commit is atomic, adds the sum of the burns listed for each node, and never
overdraws a slack. A plan commits on the store it was made on, and since every
change of the store raises the revision it is stale on every later one.
-/
namespace FrankenSim.Recompute

open Library ExactFloat Relation

/-! ### Revisions -/

section Revisions

variable {F : Type} [FloatOps F] [HashBytes] {s s' : Store F}

omit [FloatOps F] in
theorem foldl_insertAbsent_count (entries : List (StoredSemanticComputation F)) :
    ∀ acc : Std.TreeMap ContentHash (StoredSemanticComputation F) × ℕ,
      acc.2 ≤ (entries.foldl Store.insertAbsent acc).2 ∧
        ((entries.foldl Store.insertAbsent acc).2 = acc.2 → (entries.foldl Store.insertAbsent acc).1 = acc.1) := by
  induction entries with
  | nil => exact fun acc => ⟨le_rfl, fun _ => rfl⟩
  | cons entry entries ih =>
    intro acc
    obtain ⟨hle, hsame⟩ := ih (Store.insertAbsent acc entry)
    rw [List.foldl_cons]
    by_cases hin : acc.1.contains entry.key.contentHash = true
    · have hentered : Store.insertAbsent acc entry = acc := if_pos hin
      rw [hentered] at hle hsame ⊢
      exact ⟨hle, hsame⟩
    · have hentered : (Store.insertAbsent acc entry).2 = acc.2 + 1 := by simp [Store.insertAbsent, hin]
      rw [hentered] at hle
      exact ⟨by omega, fun heq => by omega⟩

/-- An effect that changes the store raises its revision. -/
theorem Effect.changed (h : Effect s s') : s' = s ∨ s'.revision = min (s.revision + 1) U64_MAX := by
  rcases h with hgrowth | ⟨victims, hvictims⟩
  case evicted => exact Or.inr rfl
  cases hgrowth with
  | migrated entries hentries =>
    simp only [Store.migrateAllLegacyNodes, hentries]
    obtain ⟨-, hsame⟩ := foldl_insertAbsent_count entries (s.semanticNodes, 0)
    split_ifs with hcount
    · exact Or.inr rfl
    · left
      rw [hsame (by omega)]
  | _ => exact Or.inr rfl

theorem reachable_effects {api later : RecomputeApi F} (h : Reachable (StepOf step) api later) :
    ReflTransGen Effect api.store later.store :=
  Reachable.invariant (P := fun later => ReflTransGen Effect api.store later.store) .refl
    (fun _ _ _ ht hstep => ht.trans (step_effects hstep)) h

theorem effects_revision_le (hs : s.revision ≤ U64_MAX) (h : ReflTransGen Effect s s') :
    s.revision ≤ s'.revision ∧ s'.revision ≤ U64_MAX := by
  induction h with
  | refl => exact ⟨le_rfl, hs⟩
  | tail _ heff ih =>
    obtain ⟨hle, hmax⟩ := heff.revision_le ih.2
    exact ⟨ih.1.trans hle, hmax⟩

/-- Below the end of its range the revision tells every two stores of a run apart. -/
theorem effects_changed (hs : s.revision < U64_MAX) (h : ReflTransGen Effect s s') :
    s' = s ∨ s.revision < s'.revision := by
  induction h with
  | refl => exact Or.inl rfl
  | tail hrest heff ih =>
    obtain ⟨-, hmax⟩ := effects_revision_le hs.le hrest
    have hle := (heff.revision_le hmax).1
    rcases ih with rfl | hlt
    · refine heff.changed.imp id fun hbump => ?_
      omega
    · exact Or.inr (hlt.trans_le hle)

/-- Whatever it burns, a commit under the certificate of the plan is refused. -/
def StalePlan (s : Store F) (p : InvalidationPlan F) : Prop :=
  ∀ burns, s.commitBurns p.storeRevision p.storeState burns =
    (.error (.stalePlan p.storeRevision s.revision p.storeState s.stateFingerprint), s)

theorem stalePlan_of_revision {p : InvalidationPlan F} (h : s.revision ≠ p.storeRevision) :
    StalePlan s p := by
  intro burns
  simp [Store.commitBurns, Store.validateBurns, h, bind, Except.bind, throw, throwThe,
    MonadExceptOf.throw]

end Revisions

/-! ### Commits -/

section Commits

variable [HashBytes] {s : Store ExactFloat}

/-- What a commit may do: nothing when it is refused, else add to each node the
sum of the burns listed for it. -/
structure Commits (s : Store ExactFloat) (burns : List (ContentHash × ExactFloat))
    (result : StoreM ExactFloat Unit) : Prop where
  refused : ∀ error, result.1 = .error error → result.2 = s
  nodes : result.1 = .ok () → ∀ k : ContentHash, result.2.nodes[k]? =
    s.nodes[k]?.map fun n => { n with burned := n.burned + fin (listedBurns burns k) }
  semantic : result.2.semanticNodes = s.semanticNodes
  seq : result.2.seq = s.seq

theorem commits_commitBurns (hs : Budgeted s) (revision : ℕ) (state : ContentHash)
    (burns : List (ContentHash × ExactFloat)) :
    Commits s burns (s.commitBurns revision state burns) := by
  unfold Store.commitBurns
  cases hvalidate : s.validateBurns revision state burns with
  | error error => exact ⟨fun _ _ => rfl, fun h => (by cases h), rfl, rfl⟩
  | ok agg =>
    refine ⟨fun _ h => (by cases h), fun _ k => ?_, rfl, rfl⟩
    change (Store.burnTotals s.nodes agg.toList)[k]? = _
    cases hn : s.nodes[k]? with
    | none =>
      rw [getElem?_burnTotals, hn]
      rfl
    | some n =>
      obtain ⟨slack, burned, hb⟩ := hs k n hn
      rw [(burned_node hvalidate hn hb).1, Option.map_some, hb.burned_eq, fin_add_fin]

omit [HashBytes] in
/-- Valid burns of stored nodes pass the first pass. -/
theorem aggregate_succeeds {burns : List (ContentHash × ExactFloat)}
    (hburns : ∀ burn ∈ burns, (∃ n, s.nodes[burn.1]? = some n) ∧
      isInvalidMagnitude burn.2 = false) :
    ∀ agg : Std.TreeMap ContentHash ExactFloat,
      (∀ k : ContentHash, ∃ q : ℚ, agg.getD k 0 = fin q) →
      ∃ agg', burns.foldlM s.aggregateBurn agg = .ok agg' := by
  induction burns with
  | nil => exact fun agg _ => ⟨agg, rfl⟩
  | cons burn burns ih =>
    intro agg hagg
    obtain ⟨⟨⟨n, hn⟩, hvalid⟩, hrest⟩ := List.forall_mem_cons.1 hburns
    obtain ⟨q, hq⟩ := hagg burn.1
    obtain ⟨r, hr, -⟩ := isInvalidMagnitude_eq_false.1 hvalid
    have hfirst : s.aggregateBurn agg burn = .ok (agg.insert burn.1 (fin (q + r))) := by
      rw [hr] at hvalid
      simp [Store.aggregateBurn, hn, hvalid, hq, hr]
    rw [List.foldlM_cons, hfirst]
    refine ih hrest _ fun k => ?_
    rw [Std.TreeMap.getD_insert]
    split_ifs
    · exact ⟨_, rfl⟩
    · exact hagg k

omit [HashBytes] in
theorem mem_burns {p : InvalidationPlan ExactFloat} {burn : ContentHash × ExactFloat} :
    burn ∈ p.burns ↔ ∃ left, (burn.1, Verdict.skip burn.2 left) ∈ p.verdicts := by
  simp only [InvalidationPlan.burns, List.mem_filterMap]
  constructor
  · rintro ⟨⟨k, v⟩, hv, hsome⟩
    cases v with
    | skip bound left =>
      cases hsome
      exact ⟨left, hv⟩
    | recompute bound reason => cases hsome
  · rintro ⟨left, hv⟩
    exact ⟨_, hv, rfl⟩

omit [HashBytes] in
theorem burns_nodup {verdicts : List (ContentHash × Verdict ExactFloat)}
    (hnodup : (verdicts.map Prod.fst).Nodup) {revision : ℕ} {state : ContentHash}
    {yield : ExactFloat} :
    ((InvalidationPlan.burns ⟨verdicts, yield, revision, state⟩).map Prod.fst).Nodup := by
  refine hnodup.sublist ?_
  unfold InvalidationPlan.burns
  induction verdicts with
  | nil => exact List.Sublist.refl _
  | cons v verdicts ih =>
    obtain ⟨k, v⟩ := v
    have ih := ih (List.nodup_cons.1 hnodup).2
    cases v with
    | skip bound left => exact ih.cons_cons k
    | recompute bound reason => exact ih.cons k

/-- A plan commits on the store it was made on. -/
theorem PlanOf.commits {edges : List (Edge ExactFloat)}
    {perturbations : List (ContentHash × ExactFloat)} {p : InvalidationPlan ExactFloat}
    (h : PlanOf s edges perturbations p) : ∃ s', applyPlan s p = (.ok (), s') := by
  have hskip : ∀ burn ∈ p.burns, ∃ (n : StoredNode ExactFloat) (b slack : ℚ),
      s.nodes[burn.1]? = some n ∧ n.effectiveSlack = fin slack ∧ burn.2 = fin b ∧ 0 ≤ b ∧
        b < slack := by
    intro burn hburn
    obtain ⟨left, hv⟩ := mem_burns.1 hburn
    obtain ⟨-, n, b, slack, hn, hslack, hb, -, -, hnonneg, hlt⟩ := h.skip _ _ _ hv
    exact ⟨n, b, slack, hn, hslack, hb, hnonneg, hlt⟩
  have hvalid : ∀ burn ∈ p.burns, (∃ n, s.nodes[burn.1]? = some n) ∧
      isInvalidMagnitude burn.2 = false := by
    intro burn hburn
    obtain ⟨n, b, -, hn, -, hb, hnonneg, -⟩ := hskip burn hburn
    exact ⟨⟨n, hn⟩, isInvalidMagnitude_eq_false.2 ⟨b, hb, hnonneg⟩⟩
  obtain ⟨agg, hagg⟩ := aggregate_succeeds hvalid ∅ fun k => ⟨0, rfl⟩
  obtain ⟨-, hlookup⟩ := aggregate_ok hagg
  have hcheck : ∀ t ∈ agg.toList, s.checkTotal t = .ok () := by
    rintro ⟨k, t⟩ ht
    have ht := Std.TreeMap.mem_toList_iff_getElem?_eq_some.1 ht
    rw [hlookup] at ht
    split_ifs at ht with hmem
    · obtain ⟨burn, hburn, rfl⟩ := List.mem_map.1 hmem
      obtain ⟨n, b, slack, hn, hslack, hb, -, hlt⟩ := hskip burn hburn
      have htotal : t = fin b := by
        rw [burnedBy_of_mem (burns_nodup h.nodup) hburn, hb] at ht
        rw [← Option.some.inj ht]
        change fin 0 + fin b = fin b
        rw [fin_add_fin, zero_add]
      simp [Store.checkTotal, hn, hslack, htotal, not_le.2 hlt]
    · simp at ht
  have hvalidate : s.validateBurns p.storeRevision p.storeState p.burns = .ok agg :=
    validateBurns_ok.2 ⟨⟨h.revision.symm, h.state.symm⟩, hagg, hcheck⟩
  exact ⟨_, by rw [applyPlan, Store.commitBurns, hvalidate]⟩

theorem revision_of_commit {p : InvalidationPlan ExactFloat} {s' : Store ExactFloat}
    (h : applyPlan s p = (.ok (), s')) : s'.revision = min (s.revision + 1) U64_MAX := by
  unfold applyPlan Store.commitBurns at h
  cases hvalidate : s.validateBurns p.storeRevision p.storeState p.burns with
  | error error => simp [hvalidate] at h
  | ok agg =>
    rw [hvalidate] at h
    cases h
    rfl

/-- Slack accounting in every reachable store: burned slack is nonnegative and
strictly inside the slack, commits are atomic and add what is listed, and a plan
commits on its own store and is stale on every later one. -/
theorem slack_accounting {apiEdges : List (Edge ExactFloat)} {defaultCost : ExactFloat}
    {api : RecomputeApi ExactFloat} (hreach : Reaches apiEdges defaultCost api) :
    (∀ (k : ContentHash) (n : StoredNode ExactFloat), api.store.nodes[k]? = some n →
      FloatOps.le 0 n.burned = true ∧
        (FloatOps.eq n.burned 0 = true ∨ FloatOps.lt 0 n.effectiveSlack = true)) ∧
    (∀ revision state burns,
      Commits api.store burns (api.store.commitBurns revision state burns)) ∧
    (∀ p, Commits api.store p.burns (applyPlan api.store p)) ∧
    (∀ node amount, Commits api.store [(node, amount)] (api.store.burnSlack node amount)) ∧
    ∀ edges perturbations p, plan api.store edges perturbations = .ok p →
      ∃ s', applyPlan api.store p = (.ok (), s') ∧
        (api.store.revision < U64_MAX →
          (∀ later, Reachable (StepOf step) api later →
            later.store = api.store ∨ StalePlan later.store p) ∧
          ∀ later, Reachable (StepOf step) { api with store := s' } later →
            StalePlan later.store p) := by
  have hbudget := hreach.budgeted
  have hcommits := commits_commitBurns hbudget
  refine ⟨fun k n hn => ?_, hcommits, fun p => hcommits _ _ _, fun node amount => hcommits _ _ _,
    fun edges perturbations p hplan => ?_⟩
  · obtain ⟨slack, burned, hb⟩ := hbudget k n hn
    rw [hb.burned_eq, hb.effectiveSlack, zero_def]
    simpa using And.intro hb.nonneg (hb.fits.imp id sub_pos.1)
  · have hspec := plan_spec hreach.wellFormed hbudget hplan
    obtain ⟨s', hs'⟩ := hspec.commits
    refine ⟨s', hs', fun hmax => ⟨fun later hlater => ?_, fun later hlater => ?_⟩⟩
    · refine (effects_changed hmax (reachable_effects hlater)).imp id fun hlt =>
        stalePlan_of_revision ?_
      rw [hspec.revision]
      exact hlt.ne'
    · have hle := (effects_revision_le ?_ (reachable_effects hlater)).1
      · refine stalePlan_of_revision ?_
        rw [hspec.revision]
        simp only [revision_of_commit hs'] at hle
        omega
      · simp only [revision_of_commit hs']
        omega

end Commits

/-- The plan of the chain is committed once. -/
theorem slack_accounting_chain :
    let _ := toyHash
    let edge : Edge ExactFloat := ⟨(plainRecord "mesh" 0 1).contentHash,
      (plainRecord "solve" 0 1).contentHash, fin (1 / 2)⟩
    ∃ (api : RecomputeApi ExactFloat) (p : InvalidationPlan ExactFloat) (s' : Store ExactFloat),
      Reaches [edge] 0 api ∧ p.burns = [(edge.toNode, fin (1 / 4))] ∧
      applyPlan api.store p = (.ok (), s') ∧ StalePlan s' p ∧ Commits s' p.burns (applyPlan s' p) := by
  intro hash edge
  have hrun : (runList step (RecomputeApi.new (Store.new ExactFloat) [edge] 0) chainRun).isSome := by
    decide +kernel
  obtain ⟨api, hapi⟩ := Option.isSome_iff_exists.1 hrun
  have hfacts : ∀ api ∈ runList step (RecomputeApi.new (Store.new ExactFloat) [edge] 0) chainRun,
      api.store.revision = 2 ∧
      ((plan api.store [edge] [(edge.fromNode, fin (1 / 2))]).toOption.map
        InvalidationPlan.burns) = some [(edge.toNode, fin (1 / 4))] := by
    decide +kernel
  obtain ⟨hrevision, hburns⟩ := hfacts api hapi
  obtain ⟨p, hp, hburns⟩ := Option.map_eq_some_iff.1 hburns
  have hreach : Reaches [edge] 0 api := ⟨_, run_of_runList hapi⟩
  obtain ⟨-, -, -, -, hplans⟩ := slack_accounting hreach
  obtain ⟨s', hs', hlater⟩ := hplans _ _ p (ok_of_toOption hp)
  have hstep : step api (.applyPlan p) = some { api with store := s' } := by simp [step, hs']
  have hstale := (hlater (by rw [hrevision]; decide)).2 _ (Reachable.refl _)
  exact ⟨api, p, s', hreach, hburns, hs', hstale,
    (slack_accounting (hreach.tail hstep)).2.2.1 p⟩

end FrankenSim.Recompute
