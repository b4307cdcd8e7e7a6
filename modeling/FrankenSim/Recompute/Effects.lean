import FrankenSim.Recompute.Api

/-!
# What an operation can do to the store

Every operation leaves the store as a chain of elementary effects: a node is
inserted, a semantic entry is written, the legacy nodes are migrated, a node is
pinned, unpinned nodes are evicted with their semantic twins, or burns are added.
The invariants of the store are proved against the effects.
-/
namespace FrankenSim.Recompute

open Library Relation

variable {F : Type}

/-- A node as `put` writes it. -/
def freshNode [FloatOps F] (s : Store F) (record : NodeRecord F) (artifactHash : ContentHash) :
    StoredNode F :=
  ⟨record, artifactHash, [], s.seq, 0⟩

/-- Nodes that may leave: distinct keys of unpinned nodes, with their sequences. -/
structure Evictable (s : Store F) (victims : List (ContentHash × ℕ)) : Prop where
  nodup : (victims.map Prod.fst).Nodup
  unpinned : ∀ v : ContentHash × ℕ, v ∈ victims →
    ∃ n, s.nodes[v.1]? = some n ∧ n.pins = [] ∧ n.seq = v.2

/-- The store without some nodes and their semantic twins. -/
def evict (s : Store F) (victims : List (ContentHash × ℕ)) : Store F :=
  { s with
    nodes := victims.foldl (fun nodes (v : ContentHash × ℕ) => nodes.erase v.1) s.nodes
    semanticNodes := s.semanticNodes.filter fun _ v =>
      !(victims.map Prod.snd).contains v.seq }.bumpRevision

/-- An entry of an eviction candidate list is an unpinned node of the store. -/
theorem unpinned_of_mem {s : Store F} {e : ContentHash × StoredNode F}
    (he : e ∈ s.nodes.toList.filter fun e => e.2.pins.isEmpty) :
    s.nodes[e.1]? = some e.2 ∧ e.2.pins = [] := by
  obtain ⟨hmem, hpins⟩ := List.mem_filter.1 he
  exact ⟨Std.TreeMap.mem_toList_iff_getElem?_eq_some.1 hmem, by simpa using hpins⟩

theorem nodup_keys_filter (s : Store F) (p : ContentHash × StoredNode F → Bool) :
    ((s.nodes.toList.filter p).map Prod.fst).Nodup := by
  have hkeys : (s.nodes.toList.map Prod.fst).Nodup := by
    rw [Std.TreeMap.map_fst_toList_eq_keys]
    exact Std.TreeMap.nodup_keys
  exact hkeys.sublist (List.filter_sublist.map _)

/-- Keys whose nodes are in the store and unpinned, each once. -/
def EvictableKeys (s : Store F) (ks : List ContentHash) : Prop :=
  ks.Nodup ∧ ∀ k ∈ ks, ∃ n, s.nodes[k]? = some n ∧ n.pins = []

theorem evictable_unpinnedBySeq (s : Store F) (m : ℕ) :
    Evictable s (s.unpinnedBySeq.take m) := by
  have hperm := List.perm_insertionSort (fun a b : ContentHash × ℕ => a.2 ≤ b.2)
    ((s.nodes.toList.filter fun e => e.2.pins.isEmpty).map fun e => (e.1, e.2.seq))
  refine ⟨?_, fun v hv => ?_⟩
  · refine List.Nodup.sublist ((List.take_sublist _ _).map _) ((hperm.map _).nodup_iff.2 ?_)
    rw [List.map_map]
    exact nodup_keys_filter s _
  · obtain ⟨e, he, rfl⟩ := List.mem_map.1 (hperm.mem_iff.1 (List.mem_of_mem_take hv))
    obtain ⟨hn, hpins⟩ := unpinned_of_mem he
    exact ⟨e.2, hn, hpins, rfl⟩

theorem removeByKey_eq {s : Store F} {k : ContentHash} {n : StoredNode F}
    (hn : s.nodes[k]? = some n) : s.removeByKey k = evict s [(k, n.seq)] := by
  simp [Store.removeByKey, evict, hn, bne, beq_eq_decide]

theorem EvictableKeys.tail {s : Store F} {k : ContentHash} {ks : List ContentHash}
    {n : StoredNode F} (h : EvictableKeys s (k :: ks)) :
    EvictableKeys (evict s [(k, n.seq)]) ks := by
  obtain ⟨hk, hks⟩ := List.nodup_cons.1 h.1
  refine ⟨hks, fun k' hk' => ?_⟩
  obtain ⟨n', hn', hpins⟩ := h.2 k' (List.mem_cons_of_mem _ hk')
  have hne : k ≠ k' := fun heq => hk (heq ▸ hk')
  refine ⟨n', ?_, hpins⟩
  simpa [evict, Store.bumpRevision, Std.TreeMap.getElem?_erase, hne] using hn'

section Operations

variable [FloatOps F] [HashBytes]

/-- One elementary change of the store that removes nothing. -/
inductive Growth (s : Store F) : Store F → Prop
  | inserted (record : NodeRecord F) (artifactHash : ContentHash)
      (hvalid : (isInvalidMagnitude record.achievedError ||
        isInvalidMagnitude record.requiredTolerance) = false)
      (hfresh : s.nodes[record.contentHash]? = none) :
      Growth s { s with
        nodes := s.nodes.insert record.contentHash (freshNode s record artifactHash)
        seq := s.seq + 1 }.bumpRevision
  | computed (entry : StoredSemanticComputation F) (hseq : entry.seq = s.seq) :
      Growth s { s with
        semanticNodes := s.semanticNodes.insert entry.key.contentHash entry
        seq := s.seq + 1 }.bumpRevision
  | migrated (entries : List (StoredSemanticComputation F))
      (hentries : s.migrations = .ok entries) :
      Growth s s.migrateAllLegacyNodes.2
  | pinned (node : ContentHash) (entry : StoredNode F) (reason : PinReason)
      (hentry : s.nodes[node]? = some entry) :
      Growth s { s with nodes := s.nodes.insert node { entry with
        pins := (entry.pins ++ [reason]).insertionSort PinReason.le } }.bumpRevision
  | burned (revision : ℕ) (state : ContentHash) (burns : List (ContentHash × F))
      (aggregated : Std.TreeMap ContentHash F)
      (hburns : s.validateBurns revision state burns = .ok aggregated) :
      Growth s { s with nodes := Store.burnTotals s.nodes aggregated.toList }.bumpRevision

/-- One elementary change of the store. -/
inductive Effect (s : Store F) : Store F → Prop
  | grown {s' : Store F} (h : Growth s s') : Effect s s'
  | evicted (victims : List (ContentHash × ℕ)) (hvictims : Evictable s victims) :
      Effect s (evict s victims)

theorem put_growth (s : Store F) (record : NodeRecord F) (bytes : List UInt8) :
    (s.put record bytes).2 = s ∨ Growth s (s.put record bytes).2 := by
  unfold Store.put
  split
  · exact Or.inl rfl
  · rename_i hvalid
    dsimp only
    split
    · left
      split <;> rfl
    · rename_i hfresh
      exact Or.inr (.inserted record _ (by simpa using hvalid) hfresh)

theorem putComputation_growth (s : Store F) (key : ComputationKey)
    (observation : OutputObservation F) (bytes : List UInt8) :
    (s.putComputation key observation bytes).2 = s ∨
      Growth s (s.putComputation key observation bytes).2 := by
  unfold Store.putComputation
  split
  · exact Or.inl rfl
  · dsimp only
    split
    · left
      split <;> rfl
    · exact Or.inr (.computed ⟨key, _, [], s.seq⟩ rfl)

theorem pin_growth (s : Store F) (node : ContentHash) (reason : PinReason) :
    (s.pin node reason).2 = s ∨ Growth s (s.pin node reason).2 := by
  unfold Store.pin
  split
  · exact Or.inl rfl
  · rename_i entry hentry
    split
    · exact Or.inl rfl
    · exact Or.inr (.pinned node entry reason hentry)

theorem migrate_growth (s : Store F) :
    s.migrateAllLegacyNodes.2 = s ∨ Growth s s.migrateAllLegacyNodes.2 := by
  cases h : s.migrations with
  | error error => exact Or.inl (by simp [Store.migrateAllLegacyNodes, h])
  | ok entries => exact Or.inr (.migrated entries h)

theorem commitBurns_growth (s : Store F) (revision : ℕ) (state : ContentHash)
    (burns : List (ContentHash × F)) :
    (s.commitBurns revision state burns).2 = s ∨
      Growth s (s.commitBurns revision state burns).2 := by
  unfold Store.commitBurns
  split
  · exact Or.inl rfl
  · rename_i aggregated h
    exact Or.inr (.burned revision state burns aggregated h)

theorem evictUnpinned_effect {s s' : Store F} {keep count : ℕ}
    (h : s.evictUnpinned keep = some (count, s')) : s' = s ∨ Effect s s' := by
  obtain ⟨_, -, hs⟩ := Option.map_eq_some_iff.1 h
  split at hs
  · rename_i hempty
    left
    have hnil : s.unpinnedBySeq.take (s.unpinnedBySeq.length - keep) = [] := by
      simpa using hempty
    rw [hnil] at hs
    exact (Prod.mk.inj hs).2.symm
  · right
    rw [← (Prod.mk.inj hs).2]
    exact .evicted _ (evictable_unpinnedBySeq s _)

omit [HashBytes] in
theorem evictableKeys_scored (api : RecomputeApi F) (m : ℕ) :
    EvictableKeys api.store ((api.scored.take m).map Prod.fst) := by
  have hperm := List.perm_insertionSort (RecomputeApi.scoreLe (F := F))
    ((api.store.nodes.toList.filter fun e => e.2.pins.isEmpty).map fun e =>
      (e.1, api.score e.1, e.2.seq))
  refine ⟨?_, fun k hk => ?_⟩
  · refine List.Nodup.sublist ((List.take_sublist _ _).map _) ((hperm.map _).nodup_iff.2 ?_)
    rw [List.map_map]
    exact nodup_keys_filter api.store _
  · obtain ⟨v, hv, rfl⟩ := List.mem_map.1 hk
    obtain ⟨e, he, rfl⟩ := List.mem_map.1 (hperm.mem_iff.1 (List.mem_of_mem_take hv))
    obtain ⟨hn, hpins⟩ := unpinned_of_mem he
    exact ⟨e.2, hn, hpins⟩

theorem removeAll_effects {ks : List ContentHash} : ∀ {s : Store F}, EvictableKeys s ks →
    ReflTransGen Effect s (RecomputeApi.removeAll s ks) := by
  induction ks with
  | nil => exact fun _ => .refl
  | cons k ks ih =>
    intro s h
    obtain ⟨n, hn, hpins⟩ := h.2 k List.mem_cons_self
    have hstep : Effect s (s.removeByKey k) := by
      rw [removeByKey_eq hn]
      exact .evicted _ ⟨by simp, by simp [hn, hpins]⟩
    refine .head hstep (ih ?_)
    rw [removeByKey_eq hn]
    exact h.tail

/-- The two ways to evict. -/
def Action.evicts : Action F → Prop
  | .evictUnpinned _ | .ensureCapacity _ => True
  | _ => False

theorem step_growth {api api' : RecomputeApi F} {a : Action F} (ha : ¬ a.evicts)
    (h : step api a = some api') : api'.store = api.store ∨ Growth api.store api'.store := by
  cases a with
  | put record bytes =>
    cases h
    exact put_growth _ _ _
  | putComputation key observation bytes =>
    cases h
    exact putComputation_growth _ _ _ _
  | pin node reason =>
    cases h
    exact pin_growth _ _ _
  | migrateAllLegacyNodes =>
    cases h
    exact migrate_growth _
  | evictUnpinned keep => exact absurd trivial ha
  | ensureCapacity maxTotal => exact absurd trivial ha
  | burnSlack node amount =>
    cases h
    exact commitBurns_growth _ _ _ _
  | commitBurns revision state burns =>
    cases h
    exact commitBurns_growth _ _ _ _
  | applyPlan plan =>
    cases h
    exact commitBurns_growth _ _ _ _
  | commit plan =>
    cases h
    have hcommit : (api.commit plan).2.store = (applyPlan api.store plan.inner).2 := by
      unfold RecomputeApi.commit
      split <;> rename_i heq <;> simp [heq]
    rw [hcommit]
    exact commitBurns_growth _ _ _ _
  | recordCost node cost =>
    cases h
    exact Or.inl rfl

/-- Every operation is a chain of elementary effects on the store. -/
theorem step_effects {api api' : RecomputeApi F} {a : Action F} (h : step api a = some api') :
    ReflTransGen Effect api.store api'.store := by
  by_cases ha : a.evicts
  · cases a with
    | evictUnpinned keep =>
      obtain ⟨r, hr, rfl⟩ := Option.map_eq_some_iff.1 h
      rcases evictUnpinned_effect hr with hsame | heffect
      · rw [hsame]
      · exact .single heffect
    | ensureCapacity maxTotal =>
      obtain ⟨r, hr, rfl⟩ := Option.map_eq_some_iff.1 h
      unfold RecomputeApi.ensureCapacity at hr
      dsimp only at hr
      split at hr
      · cases hr
        exact .refl
      · obtain ⟨_, -, rfl⟩ := Option.map_eq_some_iff.1 hr
        exact removeAll_effects (evictableKeys_scored api _)
    | _ => exact absurd ha id
  · rcases step_growth ha h with hsame | hgrowth
    · rw [hsame]
    · exact .single (.grown hgrowth)

end Operations

end FrankenSim.Recompute
