import FrankenSim.Recompute.Eviction

/-!
# Coverage of migrated nodes by semantic entries

Several legacy nodes can migrate to one semantic key, and the entry of that key
carries the sequence number of only one of them. Evicting that node removes the
entry from under the others. Runs are tracked together with the nodes a
successful migration has seen, and coverage is kept exactly by the evictions that
take the last of the nodes sharing an entry.
-/
namespace FrankenSim.Recompute

open Library

section

variable {F : Type} [FloatOps F] [HashBytes]

/-- The legacy node migrates to a semantic key with hash `h`. -/
def MigratesTo (n : StoredNode F) (h : ContentHash) : Prop :=
  ∃ key observation, migrateLegacyNodeRecord n.record n.artifactHash = .ok (key, observation) ∧
    key.contentHash = h

/-- The API with the insertion numbers of the nodes present at the last
successful migration. -/
structure Tracked (F : Type) where
  api : RecomputeApi F
  covered : List ℕ

def nodeSeqs (s : Store F) : List ℕ := s.nodes.toList.map fun e => e.2.seq

def trackStep (t : Tracked F) (a : Action F) : Option (Tracked F) :=
  (step t.api a).map fun api =>
    match a with
    | .migrateAllLegacyNodes =>
      match t.api.store.migrations with
      | .ok _ => ⟨api, nodeSeqs t.api.store⟩
      | .error _ => ⟨api, t.covered⟩
    | _ => ⟨api, t.covered⟩

/-- Every stored node that a migration has seen still has a semantic entry. -/
def Covered (t : Tracked F) : Prop :=
  ∀ (k : ContentHash) (n : StoredNode F), t.api.store.nodes[k]? = some n → n.seq ∈ t.covered →
    ∀ h : ContentHash, MigratesTo n h → t.api.store.semanticNodes.contains h = true

/-- The nodes a step evicts. -/
def victims (api : RecomputeApi F) : Action F → List ContentHash
  | .evictUnpinned keep =>
    (api.store.unpinnedBySeq.take (api.store.unpinnedBySeq.length - keep)).map Prod.fst
  | .ensureCapacity maxTotal =>
    if maxTotal < api.pinnedCount then []
    else (api.scored.take (api.scored.length - (maxTotal - api.pinnedCount))).map Prod.fst
  | _ => []

/-- When an evicted node carries the number of a semantic entry, every migrated
node of that entry leaves in the same step. -/
def EvictionSafe (t : Tracked F) (a : Action F) : Prop :=
  ∀ v ∈ victims t.api a, ∀ n : StoredNode F, t.api.store.nodes[v]? = some n →
    ∀ (h : ContentHash) (e : StoredSemanticComputation F),
      t.api.store.semanticNodes[h]? = some e → e.seq = n.seq →
      ∀ (k : ContentHash) (m : StoredNode F), t.api.store.nodes[k]? = some m →
        m.seq ∈ t.covered → MigratesTo m h → k ∈ victims t.api a

def Tracked.new (edges : List (Edge F)) (defaultCost : F) : Tracked F :=
  ⟨RecomputeApi.new (Store.new F) edges defaultCost, []⟩

/-- What the steps of a tracked run rely on. -/
structure Sound (t : Tracked F) : Prop where
  wellFormed : WellFormed t.api.store
  covered_lt : ∀ q ∈ t.covered, q < t.api.store.seq

theorem step_removed {api api' : RecomputeApi F} {a : Action F} (h : step api a = some api')
    (ha : a.evicts) : Removed api.store api'.store (victims api a) := by
  cases a with
  | evictUnpinned keep =>
    obtain ⟨r, hr, rfl⟩ := Option.map_eq_some_iff.1 h
    exact (evictUnpinned_removed hr).1
  | ensureCapacity maxTotal =>
    obtain ⟨r, hr, rfl⟩ := Option.map_eq_some_iff.1 h
    unfold RecomputeApi.ensureCapacity at hr
    dsimp only at hr
    split at hr
    · rename_i hfull
      cases hr
      simpa [victims, hfull] using Removed.refl api.store
    · rename_i hfull
      obtain ⟨_, -, rfl⟩ := Option.map_eq_some_iff.1 hr
      simpa [victims, hfull] using removed_removeAll (evictableKeys_scored api _)
  | _ => exact absurd ha id

omit [FloatOps F] [HashBytes] in
theorem mapM_ok {α β ε : Type} {f : α → Except ε β} : ∀ {l : List α} {bs : List β},
    l.mapM f = .ok bs → ∀ a ∈ l, ∃ b ∈ bs, f a = .ok b
  | [], _, _, a, ha => by cases ha
  | x :: l, bs, h, a, ha => by
    rw [List.mapM_cons] at h
    cases hx : f x with
    | error error =>
      rw [hx] at h
      cases h
    | ok b =>
      cases hl : l.mapM f with
      | error error =>
        rw [hx, hl] at h
        cases h
      | ok bs' =>
        rw [hx, hl] at h
        cases h
        rcases List.mem_cons.1 ha with rfl | ha
        · exact ⟨b, List.mem_cons_self, hx⟩
        · obtain ⟨b', hb', hf⟩ := mapM_ok hl a ha
          exact ⟨b', List.mem_cons_of_mem _ hb', hf⟩

/-- A migration that succeeds has an entry for every stored node. -/
theorem exists_migration {s : Store F} {entries : List (StoredSemanticComputation F)}
    (hentries : s.migrations = .ok entries) {k : ContentHash} {n : StoredNode F}
    (hn : s.nodes[k]? = some n) {h : ContentHash} (hto : MigratesTo n h) :
    ∃ entry ∈ entries, entry.key.contentHash = h := by
  have hmem : n ∈ s.nodes.toList.map Prod.snd :=
    List.mem_map.2 ⟨(k, n), Std.TreeMap.mem_toList_iff_getElem?_eq_some.2 hn, rfl⟩
  obtain ⟨entry, hentry, hf⟩ := mapM_ok hentries n hmem
  obtain ⟨key, observation, hmigrate, hhash⟩ := hto
  rw [hmigrate] at hf
  cases hf
  exact ⟨_, hentry, hhash⟩

omit [FloatOps F] in
theorem foldl_insertAbsent_contains (entries : List (StoredSemanticComputation F))
    {entry : StoredSemanticComputation F} (hentry : entry ∈ entries) :
    ∀ acc : Std.TreeMap ContentHash (StoredSemanticComputation F) × ℕ,
      ∃ e, (entries.foldl Store.insertAbsent acc).1[entry.key.contentHash]? = some e := by
  induction entries with
  | nil => cases hentry
  | cons first entries ih =>
    intro acc
    rcases List.mem_cons.1 hentry with rfl | hentry
    · have hentered : ∃ e, (Store.insertAbsent acc entry).1[entry.key.contentHash]? = some e := by
        unfold Store.insertAbsent
        dsimp only
        split
        · rename_i hin
          rw [Std.TreeMap.contains_eq_isSome_getElem?] at hin
          exact Option.isSome_iff_exists.1 hin
        · exact ⟨entry, Std.TreeMap.getElem?_insert_self⟩
      obtain ⟨e, he⟩ := hentered
      exact ⟨e, foldl_insertAbsent_keeps entries _ he⟩
    · exact ih hentry _

theorem Sound.step {t t' : Tracked F} {a : Action F} (hs : Sound t)
    (h : trackStep t a = some t') : Sound t' := by
  obtain ⟨api, hapi, rfl⟩ := Option.map_eq_some_iff.1 h
  have hwf := hs.wellFormed.step hapi
  have hseq : t.api.store.seq ≤ api.store.seq := by
    have heffects := step_effects hapi
    generalize api.store = s' at heffects
    induction heffects with
    | refl => exact le_rfl
    | tail _ heff ih => exact ih.trans heff.seq_le
  have hkeep : Sound ⟨api, t.covered⟩ := ⟨hwf, fun q hq => (hs.covered_lt q hq).trans_le hseq⟩
  cases a with
  | migrateAllLegacyNodes =>
    cases hm : t.api.store.migrations with
    | error error => simpa [hm] using hkeep
    | ok entries =>
      refine ⟨by simpa [hm] using hwf, fun q hq => ?_⟩
      simp only [nodeSeqs] at hq ⊢
      obtain ⟨e, he, rfl⟩ := List.mem_map.1 hq
      have hn := Std.TreeMap.mem_toList_iff_getElem?_eq_some.1 he
      exact (hs.wellFormed.seq_lt _ _ hn).trans_le hseq
  | _ => exact hkeep

omit [FloatOps F] [HashBytes] in
theorem contains_of_getElem? {s : Store F} {h : ContentHash} {e : StoredSemanticComputation F}
    (he : s.semanticNodes[h]? = some e) : s.semanticNodes.contains h = true := by
  rw [Std.TreeMap.contains_eq_isSome_getElem?, he]
  rfl

/-- A node keeps what it migrates to. -/
theorem SameNode.migratesTo {n n' : StoredNode F} (hsame : SameNode n n') {h : ContentHash}
    (hto : MigratesTo n' h) : MigratesTo n h := by
  unfold MigratesTo at hto ⊢
  rwa [hsame.record, hsame.artifactHash] at hto

theorem Covered.growth {t : Tracked F} (hs : Sound t) (hc : Covered t) {api : RecomputeApi F}
    (hstep : api.store = t.api.store ∨ Growth t.api.store api.store) :
    Covered ⟨api, t.covered⟩ := by
  intro k n' hn' hcov h hto
  rcases hstep with hsame | hgrowth
  · change api.store.nodes[k]? = some n' at hn'
    rw [hsame] at hn'
    change api.store.semanticNodes.contains h = true
    rw [hsame]
    exact hc k n' hn' hcov h hto
  · rcases (Effect.grown hgrowth).node_origin hn' with ⟨n, hn, hsame⟩ | hnew
    · have hold := hc k n hn (hsame.seq ▸ hcov) h (hsame.migratesTo hto)
      rw [Std.TreeMap.contains_eq_isSome_getElem?] at hold
      obtain ⟨e, he⟩ := Option.isSome_iff_exists.1 hold
      obtain ⟨e', he'⟩ := hgrowth.semantic_kept he
      exact contains_of_getElem? he'
    · have hlt := hs.covered_lt n'.seq hcov
      rw [hnew.seq] at hlt
      exact absurd hlt (lt_irrefl _)

theorem covered_migrated {t : Tracked F} {entries : List (StoredSemanticComputation F)}
    (hentries : t.api.store.migrations = .ok entries) (covered : List ℕ) :
    Covered ⟨{ t.api with store := t.api.store.migrateAllLegacyNodes.2 }, covered⟩ := by
  intro k n hn _ h hto
  have hold : t.api.store.nodes[k]? = some n := by
    simp only [Store.migrateAllLegacyNodes, hentries] at hn
    split at hn <;> exact hn
  obtain ⟨entry, hentry, rfl⟩ := exists_migration hentries hold hto
  obtain ⟨e, he⟩ := foldl_insertAbsent_contains entries hentry (t.api.store.semanticNodes, 0)
  refine contains_of_getElem? (e := e) ?_
  simp only [Store.migrateAllLegacyNodes, hentries]
  split <;> exact he

/-- An eviction keeps coverage exactly when it is safe. -/
theorem covered_evict_iff {t : Tracked F} (hc : Covered t) {a : Action F} {api : RecomputeApi F}
    (hremoved : Removed t.api.store api.store (victims t.api a)) :
    Covered ⟨api, t.covered⟩ ↔ EvictionSafe t a := by
  constructor
  · intro hc' v hv n hn h e he hseq k m hm hcov hto
    by_contra hk
    have hm' : api.store.nodes[k]? = some m := by rw [hremoved.nodes, if_neg hk, hm]
    have hin := hc' k m hm' hcov h hto
    rw [Std.TreeMap.contains_eq_isSome_getElem?] at hin
    obtain ⟨e', he'⟩ := Option.isSome_iff_exists.1 hin
    obtain ⟨hold, hall⟩ := (hremoved.semantic h e').1 he'
    obtain rfl : e = e' := Option.some.inj (he.symm.trans hold)
    exact hall v hv n hn hseq.symm
  · intro hsafe k n hn hcov h hto
    change api.store.nodes[k]? = some n at hn
    rw [hremoved.nodes] at hn
    split at hn
    · cases hn
    · rename_i hk
      have hin := hc k n hn hcov h hto
      rw [Std.TreeMap.contains_eq_isSome_getElem?] at hin
      obtain ⟨e, he⟩ := Option.isSome_iff_exists.1 hin
      refine contains_of_getElem? ((hremoved.semantic h e).2 ⟨he, fun v hv m hm hseq => ?_⟩)
      exact hk (hsafe v hv m hm h e he hseq.symm k n hn hcov hto)

theorem covered_step_iff {t t' : Tracked F} {a : Action F} (hs : Sound t) (hc : Covered t)
    (h : trackStep t a = some t') : Covered t' ↔ EvictionSafe t a := by
  obtain ⟨api, hapi, rfl⟩ := Option.map_eq_some_iff.1 h
  by_cases ha : a.evicts
  · have hremoved := step_removed hapi ha
    cases a with
    | evictUnpinned | ensureCapacity => exact covered_evict_iff hc hremoved
    | _ => exact absurd ha id
  · have hsafe : EvictionSafe t a := by
      cases a with
      | evictUnpinned | ensureCapacity => exact absurd trivial ha
      | _ => simp [EvictionSafe, victims]
    refine ⟨fun _ => hsafe, fun _ => ?_⟩
    have hgrown := hc.growth hs (step_growth ha hapi)
    cases a with
    | migrateAllLegacyNodes =>
      cases hm : t.api.store.migrations with
      | error error => simpa [hm] using hgrown
      | ok entries =>
        cases hapi
        simpa [hm] using covered_migrated hm _
    | _ => exact hgrown

theorem Sound.new (edges : List (Edge F)) (defaultCost : F) : Sound (Tracked.new edges defaultCost) :=
  ⟨WellFormed.new, by simp [Tracked.new]⟩

/-- Coverage holds in every state of a run whose evictions are safe, and the first
unsafe eviction breaks it. -/
theorem covered_of_safe_evictions {edges : List (Edge F)} {defaultCost : F}
    {as : List (Action F)} {t : Tracked F}
    (hrun : Run (Restrict (StepOf trackStep) EvictionSafe) (Tracked.new edges defaultCost) as t) :
    Covered t ∧ ∀ a t', trackStep t a = some t' → (Covered t' ↔ EvictionSafe t a) := by
  have hinv : Sound t ∧ Covered t := by
    refine hrun.invariant (P := fun t => Sound t ∧ Covered t) ⟨Sound.new _ _, ?_⟩ ?_
    · intro k n hn
      simp [Tracked.new, RecomputeApi.new, Store.new] at hn
    · rintro t a u ⟨hs, hc⟩ ⟨hsafe, hstep⟩
      exact ⟨hs.step hstep, (covered_step_iff hs hc hstep).2 hsafe⟩
  exact ⟨hinv.2, fun a t' h => covered_step_iff hinv.1 hinv.2 h⟩

/-- A check of an eviction over the lists of entries and nodes. -/
def evictsSafely (t : Tracked F) (a : Action F) : Bool :=
  t.api.store.semanticNodes.toList.all fun p =>
    (t.api.store.nodes.toList.all fun v =>
      decide (v.1 ∈ victims t.api a → v.2.seq ≠ p.2.seq)) ||
    t.api.store.nodes.toList.all fun q =>
      decide (q.1 ∈ victims t.api a) ||
        decide (((migrateLegacyNodeRecord q.2.record q.2.artifactHash).toOption.map fun m =>
          m.1.contentHash) ≠ some p.1)

theorem evictionSafe_of_evictsSafely {t : Tracked F} {a : Action F}
    (h : evictsSafely t a = true) : EvictionSafe t a := by
  intro v hv n hn hash e he hseq k m hm _ hto
  have hentry := List.all_eq_true.1 h (hash, e)
    (Std.TreeMap.mem_toList_iff_getElem?_eq_some.2 he)
  rcases Bool.or_eq_true_iff.1 hentry with hnone | hall
  · have hvictim := List.all_eq_true.1 hnone (v, n)
      (Std.TreeMap.mem_toList_iff_getElem?_eq_some.2 hn)
    exact absurd hseq.symm (of_decide_eq_true hvictim hv)
  · have hnode := List.all_eq_true.1 hall (k, m)
      (Std.TreeMap.mem_toList_iff_getElem?_eq_some.2 hm)
    rcases Bool.or_eq_true_iff.1 hnode with hin | hother
    · exact of_decide_eq_true hin
    · obtain ⟨key, observation, hmigrate, hkey⟩ := hto
      refine absurd ?_ (of_decide_eq_true hother)
      simp [hmigrate, Except.toOption, hkey]

/-- The steps that pass the check. -/
def safeStep (t : Tracked F) (a : Action F) : Option (Tracked F) :=
  if evictsSafely t a then trackStep t a else none

theorem restrict_of_safeStep {t u : Tracked F} {a : Action F} (h : safeStep t a = some u) :
    Restrict (StepOf trackStep) EvictionSafe t a u := by
  unfold safeStep at h
  split at h
  · rename_i hsafe
    exact ⟨evictionSafe_of_evictsSafely hsafe, h⟩
  · cases h

end

/-- Two of three nodes share a semantic key, and one eviction takes both of them with their
entry. -/
def sharedVictimsRun : List (Action ExactFloat) :=
  [.put (plainRecord "mesh" 0 1) [1], .put (plainRecord "mesh" (1 / 2) 1) [1],
    .put (plainRecord "load" 0 1) [2], .migrateAllLegacyNodes, .evictUnpinned 1]

theorem covered_of_safe_evictions_shared :
    let _ := toyHash
    ∃ t u : Tracked ExactFloat,
      Run (Restrict (StepOf trackStep) EvictionSafe) (Tracked.new [] 0) sharedVictimsRun.dropLast t ∧
      trackStep t (.evictUnpinned 1) = some u ∧
      t.api.store.nodes.size = 3 ∧ t.covered.length = 3 ∧ t.api.store.semanticNodes.size = 2 ∧
      u.api.store.nodes.size = 1 ∧ u.api.store.semanticNodes.size = 1 ∧ Covered t ∧ Covered u := by
  intro hash
  have hsome : (runList safeStep (Tracked.new [] 0) sharedVictimsRun).isSome := by
    decide +kernel
  obtain ⟨u, hu⟩ := Option.isSome_iff_exists.1 hsome
  have hsplit := hu
  rw [← List.dropLast_append_getLast (l := sharedVictimsRun) (by simp [sharedVictimsRun]),
    runList_append] at hsplit
  obtain ⟨t, ht, hlast⟩ := Option.bind_eq_some_iff.1 hsplit
  obtain ⟨u', hu', hsame⟩ := Option.bind_eq_some_iff.1 hlast
  cases hsame
  have hfacts : ∀ t ∈ runList safeStep (Tracked.new [] 0) sharedVictimsRun.dropLast,
      t.api.store.nodes.size = 3 ∧ t.covered.length = 3 ∧
        t.api.store.semanticNodes.size = 2 := by
    decide +kernel
  have hleft : ∀ u ∈ runList safeStep (Tracked.new [] 0) sharedVictimsRun,
      u.api.store.nodes.size = 1 ∧ u.api.store.semanticNodes.size = 1 := by
    decide +kernel
  obtain ⟨hnodes, hcovered, hentries⟩ := hfacts t ht
  obtain ⟨hnodes', hentries'⟩ := hleft u hu
  have hrun : Run (Restrict (StepOf trackStep) EvictionSafe) (Tracked.new [] 0)
      sharedVictimsRun.dropLast t :=
    (run_of_runList ht).mono fun _ _ _ hstep => restrict_of_safeStep hstep
  have hevict : Restrict (StepOf trackStep) EvictionSafe t (.evictUnpinned 1) u :=
    restrict_of_safeStep hu'
  obtain ⟨hbefore, hafter⟩ := covered_of_safe_evictions hrun
  exact ⟨t, u, hrun, hevict.2, hnodes, hcovered, hentries, hnodes', hentries', hbefore,
    (hafter _ u hevict.2).2 hevict.1⟩

/-- Two records that differ in their achieved error only share a semantic key;
evicting the one whose number the entry carries uncovers the other. -/
def sharedKeyRun : List (Action ExactFloat) :=
  [.put (plainRecord "mesh" 0 1) [1], .put (plainRecord "mesh" (1 / 2) 1) [1],
    .migrateAllLegacyNodes, .evictUnpinned 1]

theorem coverage_lost :
    let _ := toyHash
    ∃ t : Tracked ExactFloat, Run (StepOf trackStep) (Tracked.new [] 0) sharedKeyRun t ∧
      ¬ Covered t := by
  intro hash
  have hsome : (runList trackStep (Tracked.new [] 0) sharedKeyRun).isSome := by decide +kernel
  obtain ⟨t, ht⟩ := Option.isSome_iff_exists.1 hsome
  have hfacts : ∀ t ∈ runList trackStep (Tracked.new [] 0) sharedKeyRun,
      t.api.store.semanticNodes.toList = [] ∧
      (t.api.store.nodes[(plainRecord "mesh" (1 / 2) 1).contentHash]?).map (fun n =>
        (decide (n.seq ∈ t.covered),
          (migrateLegacyNodeRecord n.record n.artifactHash).toOption.isSome)) =
        some (true, true) := by
    decide +kernel
  obtain ⟨hempty, hnode⟩ := hfacts t ht
  obtain ⟨n, hn, hpair⟩ := Option.map_eq_some_iff.1 hnode
  obtain ⟨hcov, hok⟩ := Prod.mk.inj hpair
  refine ⟨t, run_of_runList ht, fun hcovered => ?_⟩
  cases hm : migrateLegacyNodeRecord n.record n.artifactHash with
  | error error => simp [hm, Except.toOption] at hok
  | ok result =>
    have hin := hcovered _ n hn (by simpa using hcov) _ ⟨result.1, result.2, hm, rfl⟩
    rw [Std.TreeMap.contains_eq_isSome_getElem?] at hin
    obtain ⟨e, he⟩ := Option.isSome_iff_exists.1 hin
    have hmem := Std.TreeMap.mem_toList_iff_getElem?_eq_some.2 he
    rw [hempty] at hmem
    cases hmem

end FrankenSim.Recompute
