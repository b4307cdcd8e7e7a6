import FrankenSim.Library.Refusals
import FrankenSim.Recompute.WellFormed

/-!
# Slack accounting in exact arithmetic

A commit validates its burns entry by entry, then in total, and only then adds
them. In exact arithmetic the totals are the sums of the listed burns, and every
node keeps its burned slack nonnegative and, once it has burned anything,
strictly inside its slack.
-/
namespace FrankenSim.Recompute

open Library ExactFloat

section Aggregation

variable {F : Type} [FloatOps F]

theorem burnedBy_cons (burn : ContentHash × F) (burns : List (ContentHash × F))
    (k : ContentHash) (b : F) :
    burnedBy (burn :: burns) k b = burnedBy burns k (if burn.1 = k then b + burn.2 else b) := rfl

theorem burnedBy_of_notMem {burns : List (ContentHash × F)} {k : ContentHash}
    (hk : k ∉ burns.map Prod.fst) (b : F) : burnedBy burns k b = b := by
  induction burns with
  | nil => rfl
  | cons burn burns ih =>
    rw [List.map_cons, List.mem_cons, not_or] at hk
    rw [burnedBy_cons, if_neg (Ne.symm hk.1), ih hk.2]

/-- With distinct keys only the entry of `k` counts. -/
theorem burnedBy_of_mem {totals : List (ContentHash × F)} {k : ContentHash} {t : F}
    (hnodup : (totals.map Prod.fst).Nodup) (hmem : (k, t) ∈ totals) (b : F) :
    burnedBy totals k b = b + t := by
  induction totals with
  | nil => cases hmem
  | cons first totals ih =>
    obtain ⟨hfirst, hnodup⟩ := List.nodup_cons.1 hnodup
    rw [burnedBy_cons]
    rcases List.mem_cons.1 hmem with rfl | hmem
    · rw [if_pos rfl, burnedBy_of_notMem hfirst]
    · have hne : first.1 ≠ k := fun heq => hfirst (heq ▸ List.mem_map_of_mem hmem)
      rw [if_neg hne, ih hnodup hmem]

theorem burnedBy_toList (totals : Std.TreeMap ContentHash F) (k : ContentHash) (b : F) :
    burnedBy totals.toList k b = (totals[k]?.map fun t => b + t).getD b := by
  have hnodup : (totals.toList.map Prod.fst).Nodup := by
    rw [Std.TreeMap.map_fst_toList_eq_keys]
    exact Std.TreeMap.nodup_keys
  cases ht : totals[k]? with
  | some t => exact burnedBy_of_mem hnodup (Std.TreeMap.mem_toList_iff_getElem?_eq_some.2 ht) b
  | none =>
    refine burnedBy_of_notMem (fun hk => ?_) b
    obtain ⟨e, he, rfl⟩ := List.mem_map.1 hk
    rw [Std.TreeMap.mem_toList_iff_getElem?_eq_some.1 he] at ht
    cases ht

/-- What one entry of the first pass checks and does. -/
theorem aggregateBurn_ok {s : Store F} {agg agg' : Std.TreeMap ContentHash F}
    {burn : ContentHash × F} (h : s.aggregateBurn agg burn = .ok agg') :
    (∃ n, s.nodes[burn.1]? = some n) ∧ isInvalidMagnitude burn.2 = false ∧
      agg' = agg.insert burn.1 (agg.getD burn.1 0 + burn.2) := by
  unfold Store.aggregateBurn at h
  split at h
  · cases h
  · rename_i n hn
    dsimp only at h
    split_ifs at h with hinvalid hfinite
    cases h
    exact ⟨⟨n, hn⟩, by simpa using hinvalid, rfl⟩

/-- The totals of the first pass are the sums of the listed burns. -/
theorem aggregate_ok {s : Store F} {burns : List (ContentHash × F)} :
    ∀ {agg agg' : Std.TreeMap ContentHash F}, burns.foldlM s.aggregateBurn agg = .ok agg' →
      (∀ burn ∈ burns, (∃ n, s.nodes[burn.1]? = some n) ∧ isInvalidMagnitude burn.2 = false) ∧
      ∀ k : ContentHash, agg'[k]? =
        if k ∈ burns.map Prod.fst then some (burnedBy burns k (agg.getD k 0)) else agg[k]? := by
  induction burns with
  | nil =>
    intro agg agg' h
    cases h
    exact ⟨by simp, by simp⟩
  | cons burn burns ih =>
    intro agg agg' h
    rw [List.foldlM_cons] at h
    cases hfirst : s.aggregateBurn agg burn with
    | error error =>
      rw [hfirst] at h
      cases h
    | ok mid =>
      rw [hfirst] at h
      obtain ⟨hnode, hvalid, rfl⟩ := aggregateBurn_ok hfirst
      obtain ⟨hrest, hlookup⟩ := ih h
      refine ⟨List.forall_mem_cons.2 ⟨⟨hnode, hvalid⟩, hrest⟩, fun k => ?_⟩
      rw [hlookup k, burnedBy_cons, Std.TreeMap.getElem?_insert, Std.TreeMap.getD_insert]
      by_cases hk : burn.1 = k
      · subst hk
        by_cases hmem : burn.1 ∈ burns.map Prod.fst
        · simp [hmem]
        · simp [hmem, burnedBy_of_notMem hmem]
      · simp only [mem_keys_cons_of_ne hk, compare_eq_iff_eq, hk, if_false]

theorem ok_of_toOption {α ε : Type} {e : Except ε α} {a : α} (h : e.toOption = some a) :
    e = .ok a := by
  cases e with
  | error error => cases h
  | ok a' => exact congrArg _ (Option.some.inj h)

theorem validateBurns_ok [HashBytes] {s : Store F} {revision : ℕ} {state : ContentHash}
    {burns : List (ContentHash × F)} {agg : Std.TreeMap ContentHash F} :
    s.validateBurns revision state burns = .ok agg ↔
      (s.revision = revision ∧ s.stateFingerprint = state) ∧
      burns.foldlM s.aggregateBurn ∅ = .ok agg ∧ ∀ t ∈ agg.toList, s.checkTotal t = .ok () := by
  unfold Store.validateBurns
  by_cases hfresh : s.revision = revision ∧ s.stateFingerprint = state
  · obtain ⟨rfl, rfl⟩ := hfresh
    cases hagg : burns.foldlM s.aggregateBurn ∅ with
    | error error => simp [bind, Except.bind]
    | ok agg' =>
      cases htotals : agg'.toList.forM s.checkTotal with
      | error error =>
        have hne : agg' = agg → ¬ ∀ t ∈ agg.toList, s.checkTotal t = .ok () := by
          rintro rfl hall
          rw [forM_ok.2 hall] at htotals
          cases htotals
        simpa [bind, Except.bind, pure, Except.pure, htotals] using hne
      | ok u =>
        have hall := forM_ok.1 htotals
        simp only [bind, Except.bind, pure, Except.pure, htotals]
        simp only [ne_eq, not_true_eq_false, or_self, if_false, Except.ok.injEq, true_and]
        exact ⟨fun h => ⟨h, h ▸ hall⟩, fun h => h.1⟩
  · have hstale : s.revision ≠ revision ∨ s.stateFingerprint ≠ state := by
      by_contra hnot
      push Not at hnot
      exact hfresh hnot
    simp [hstale, hfresh, bind, Except.bind, throw, throwThe, MonadExceptOf.throw]

end Aggregation

theorem isInvalidMagnitude_eq_false {x : ExactFloat} :
    isInvalidMagnitude x = false ↔ ∃ q : ℚ, x = fin q ∧ 0 ≤ q := by
  cases x with
  | fin q => simp [isInvalidMagnitude, zero_def]
  | _ => simp [isInvalidMagnitude, FloatOps.isFinite, isFinite]

/-- The sum of the burns listed for a node. -/
def listedBurns (burns : List (ContentHash × ExactFloat)) (k : ContentHash) : ℚ :=
  ((burns.filter fun burn => burn.1 = k).map fun burn => toRat burn.2).sum

theorem burnedBy_exact {burns : List (ContentHash × ExactFloat)} (k : ContentHash)
    (hvalid : ∀ burn ∈ burns, isInvalidMagnitude burn.2 = false) (b : ℚ) :
    burnedBy burns k (fin b) = fin (b + listedBurns burns k) ∧ 0 ≤ listedBurns burns k := by
  induction burns generalizing b with
  | nil => simp [burnedBy, listedBurns]
  | cons burn burns ih =>
    obtain ⟨hburn, hvalid⟩ := List.forall_mem_cons.1 hvalid
    obtain ⟨q, hq, hpos⟩ := isInvalidMagnitude_eq_false.1 hburn
    rw [burnedBy_cons]
    by_cases hk : burn.1 = k
    · obtain ⟨hsum, hnonneg⟩ := ih hvalid (b + q)
      have hlisted : listedBurns (burn :: burns) k = q + listedBurns burns k := by
        simp [listedBurns, hk, hq]
      rw [if_pos hk, hq, fin_add_fin, hsum, hlisted, add_assoc]
      exact ⟨rfl, add_nonneg hpos hnonneg⟩
    · have hlisted : listedBurns (burn :: burns) k = listedBurns burns k := by
        simp [listedBurns, hk]
      rw [if_neg hk, hlisted]
      exact ih hvalid b

/-- The budget of a node: what it may burn and what it has burned. -/
structure Budget (n : StoredNode ExactFloat) (slack burned : ℚ) : Prop where
  slack_eq : n.record.slack = fin slack
  burned_eq : n.burned = fin burned
  nonneg : 0 ≤ burned
  fits : burned = 0 ∨ 0 < slack - burned

theorem Budget.effectiveSlack {n : StoredNode ExactFloat} {slack burned : ℚ}
    (h : Budget n slack burned) : n.effectiveSlack = fin (slack - burned) := by
  rw [StoredNode.effectiveSlack, h.slack_eq, h.burned_eq, fin_sub_fin]

def Budgeted (s : Store ExactFloat) : Prop :=
  ∀ (k : ContentHash) (n : StoredNode ExactFloat), s.nodes[k]? = some n →
    ∃ slack burned, Budget n slack burned

section Runs

variable [HashBytes] {s s' : Store ExactFloat}

/-- What a commit that validates does to one node. -/
theorem burned_node {revision : ℕ} {state : ContentHash}
    {burns : List (ContentHash × ExactFloat)} {agg : Std.TreeMap ContentHash ExactFloat}
    (h : s.validateBurns revision state burns = .ok agg) {k : ContentHash}
    {n : StoredNode ExactFloat} {slack burned : ℚ} (hn : s.nodes[k]? = some n)
    (hb : Budget n slack burned) :
    (Store.burnTotals s.nodes agg.toList)[k]? =
        some { n with burned := fin (burned + listedBurns burns k) } ∧
      0 ≤ listedBurns burns k ∧
      (listedBurns burns k = 0 ∨ listedBurns burns k < slack - burned) := by
  obtain ⟨-, hagg, hcheck⟩ := validateBurns_ok.1 h
  obtain ⟨hvalid, hlookup⟩ := aggregate_ok hagg
  have hvalid : ∀ burn ∈ burns, isInvalidMagnitude burn.2 = false := fun b hb => (hvalid b hb).2
  obtain ⟨hzero, hnonneg⟩ := burnedBy_exact k hvalid 0
  have hadded : burnedBy agg.toList k n.burned = fin (burned + listedBurns burns k) := by
    rw [burnedBy_toList, hlookup, hb.burned_eq]
    by_cases hmem : k ∈ burns.map Prod.fst
    · have hdefault : (∅ : Std.TreeMap ContentHash ExactFloat).getD k 0 = fin 0 := rfl
      simp [hmem, hdefault, hzero]
    · have hnone : listedBurns burns k = 0 := by
        have hsame := burnedBy_of_notMem hmem (fin 0)
        rw [hzero] at hsame
        simpa using hsame
      simp [hmem, hnone]
  refine ⟨by rw [getElem?_burnTotals, hn, ← hadded]; rfl, hnonneg, ?_⟩
  by_cases hmem : k ∈ burns.map Prod.fst
  · right
    have ht : agg[k]? = some (fin (listedBurns burns k)) := by
      rw [hlookup, if_pos hmem]
      have hdefault : (∅ : Std.TreeMap ContentHash ExactFloat).getD k 0 = fin 0 := rfl
      rw [hdefault, hzero, zero_add]
    have hc := hcheck _ (Std.TreeMap.mem_toList_iff_getElem?_eq_some.2 ht)
    simp only [Store.checkTotal, hn, hb.effectiveSlack, le_fin, decide_eq_true_eq] at hc
    split_ifs at hc with hle
    exact not_le.1 hle
  · left
    have hsame := burnedBy_of_notMem hmem (fin 0)
    rw [hzero] at hsame
    simpa using hsame

theorem Budgeted.growth (hs : Budgeted s) (h : Growth s s') : Budgeted s' := by
  intro k n' hn'
  cases h with
  | inserted record artifactHash hvalid hfresh =>
    simp only [Store.bumpRevision, Std.TreeMap.getElem?_insert] at hn'
    split at hn'
    · cases hn'
      simp only [Bool.or_eq_false_iff] at hvalid
      obtain ⟨a, ha, -⟩ := isInvalidMagnitude_eq_false.1 hvalid.1
      obtain ⟨r, hr, -⟩ := isInvalidMagnitude_eq_false.1 hvalid.2
      exact ⟨r - a, 0, by simp [freshNode, NodeRecord.slack, ha, hr], rfl, le_rfl, Or.inl rfl⟩
    · exact hs k n' hn'
  | computed entry hseq => exact hs k n' hn'
  | migrated entries hentries =>
    simp only [Store.migrateAllLegacyNodes, hentries] at hn'
    split at hn' <;> exact hs k n' hn'
  | pinned node entry reason hentry =>
    simp only [Store.bumpRevision, Std.TreeMap.getElem?_insert] at hn'
    split at hn'
    · cases hn'
      obtain ⟨slack, burned, hb⟩ := hs node entry hentry
      exact ⟨slack, burned, hb.slack_eq, hb.burned_eq, hb.nonneg, hb.fits⟩
    · exact hs k n' hn'
  | burned revision state burns agg hburns =>
    simp only [Store.bumpRevision] at hn'
    have hold := hn'
    rw [getElem?_burnTotals] at hold
    obtain ⟨n, hn, -⟩ := Option.map_eq_some_iff.1 hold
    obtain ⟨slack, burned, hb⟩ := hs k n hn
    obtain ⟨hnode, hnonneg, hfits⟩ := burned_node hburns hn hb
    rw [hnode] at hn'
    cases hn'
    refine ⟨slack, burned + listedBurns burns k, hb.slack_eq, rfl,
      add_nonneg hb.nonneg hnonneg, ?_⟩
    rcases hfits with hzero | hlt
    · rw [hzero, add_zero]
      exact hb.fits
    · right
      linarith

theorem Budgeted.effect (hs : Budgeted s) (h : Effect s s') : Budgeted s' := by
  rcases h with hgrowth | ⟨victims, hvictims⟩
  case grown => exact hs.growth hgrowth
  intro k n' hn'
  simp only [evict, Store.bumpRevision, getElem?_eraseAll] at hn'
  split at hn'
  · cases hn'
  · exact hs k n' hn'

theorem Reaches.budgeted {edges : List (Edge ExactFloat)} {defaultCost : ExactFloat}
    {api : RecomputeApi ExactFloat} (h : Reaches edges defaultCost api) : Budgeted api.store := by
  refine Reachable.invariant (P := fun api => Budgeted api.store) ?_ (fun t a u hs hstep => ?_) h
  · intro k n hn
    simp [RecomputeApi.new, Store.new] at hn
  · have heffects := step_effects hstep
    generalize u.store = s' at heffects
    induction heffects with
    | refl => exact hs
    | tail _ heff ih => exact ih.effect heff

end Runs

end FrankenSim.Recompute
