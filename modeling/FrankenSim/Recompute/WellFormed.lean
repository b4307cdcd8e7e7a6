import FrankenSim.Recompute.Effects

/-!
# Well-formed stores

Every node of a reachable store sits under the content hash of its record, was
admitted with finite nonnegative error bounds, and has an insertion number of
its own below the counter.
-/
namespace FrankenSim.Recompute

open Library Relation

variable {F : Type}

theorem mem_keys_cons_of_ne {α : Type} {e : ContentHash × α} {l : List (ContentHash × α)}
    {k : ContentHash} (hk : e.1 ≠ k) :
    k ∈ (e :: l).map Prod.fst ↔ k ∈ l.map Prod.fst := by
  rw [List.map_cons, List.mem_cons, or_iff_right (Ne.symm hk)]

theorem getElem?_eraseAll (victims : List (ContentHash × ℕ)) (k : ContentHash) :
    ∀ nodes : Std.TreeMap ContentHash (StoredNode F),
      (victims.foldl (fun nodes (v : ContentHash × ℕ) => nodes.erase v.1) nodes)[k]? =
        if k ∈ victims.map Prod.fst then none else nodes[k]? := by
  induction victims with
  | nil => simp
  | cons v victims ih =>
    intro nodes
    rw [List.foldl_cons, ih, Std.TreeMap.getElem?_erase]
    by_cases hv : v.1 = k
    · simp [hv]
    · simp only [mem_keys_cons_of_ne hv, compare_eq_iff_eq, hv, if_false]

/-- The burned slack of node `k` after a list of totals. -/
def burnedBy [Add F] (totals : List (ContentHash × F)) (k : ContentHash) (burned : F) : F :=
  totals.foldl (fun b t => if t.1 = k then b + t.2 else b) burned

theorem getElem?_burnTotals [FloatOps F] (totals : List (ContentHash × F)) (k : ContentHash) :
    ∀ nodes : Std.TreeMap ContentHash (StoredNode F),
      (Store.burnTotals nodes totals)[k]? =
        nodes[k]?.map fun n => { n with burned := burnedBy totals k n.burned } := by
  induction totals with
  | nil => simp [Store.burnTotals, burnedBy]
  | cons t totals ih =>
    intro nodes
    change (Store.burnTotals (nodes.modify t.1 _) totals)[k]? = _
    rw [ih, Std.TreeMap.getElem?_modify]
    by_cases hk : t.1 = k
    · subst hk
      cases nodes[t.1]? <;> simp [burnedBy]
    · simp [hk, burnedBy]

/-- The invariant of every reachable store. -/
structure WellFormed [FloatOps F] [HashBytes] (s : Store F) : Prop where
  keyed : ∀ (k : ContentHash) (n : StoredNode F), s.nodes[k]? = some n → n.record.contentHash = k
  valid : ∀ (k : ContentHash) (n : StoredNode F), s.nodes[k]? = some n →
    isInvalidMagnitude n.record.achievedError = false ∧
      isInvalidMagnitude n.record.requiredTolerance = false
  seq_lt : ∀ (k : ContentHash) (n : StoredNode F), s.nodes[k]? = some n → n.seq < s.seq
  seq_inj : ∀ (k k' : ContentHash) (n n' : StoredNode F), s.nodes[k]? = some n →
    s.nodes[k']? = some n' → n.seq = n'.seq → k = k'

/-- What survives of a node when other operations touch the store. -/
structure SameNode (n n' : StoredNode F) : Prop where
  record : n'.record = n.record
  artifactHash : n'.artifactHash = n.artifactHash
  seq : n'.seq = n.seq

section

variable [FloatOps F] [HashBytes] {s s' : Store F}

theorem WellFormed.new : WellFormed (Store.new F) := by
  constructor <;> simp [Store.new]

/-- The effect put node `n'` under the absent key `k` and left the others alone. -/
structure InsertedNode (s s' : Store F) (k : ContentHash) (n' : StoredNode F) : Prop where
  absent : s.nodes[k]? = none
  seq : n'.seq = s.seq
  next : s'.seq = s.seq + 1
  burned : n'.burned = 0
  keyed : n'.record.contentHash = k
  valid : isInvalidMagnitude n'.record.achievedError = false ∧
    isInvalidMagnitude n'.record.requiredTolerance = false
  other : ∀ k' : ContentHash, k' ≠ k → s'.nodes[k']? = s.nodes[k']?

/-- A node of the store after an effect is an old node, or it was just inserted. -/
theorem Effect.node_origin (h : Effect s s') {k : ContentHash} {n' : StoredNode F}
    (hn : s'.nodes[k]? = some n') :
    (∃ n, s.nodes[k]? = some n ∧ SameNode n n') ∨
    InsertedNode s s' k n' := by
  rcases h with hgrowth | ⟨victims, hvictims⟩
  case evicted =>
    simp only [evict, Store.bumpRevision, getElem?_eraseAll] at hn
    split at hn
    · cases hn
    · exact Or.inl ⟨n', hn, rfl, rfl, rfl⟩
  cases hgrowth with
  | inserted record artifactHash hvalid hfresh =>
    simp only [Store.bumpRevision, Std.TreeMap.getElem?_insert] at hn
    split at hn
    · rename_i hk
      obtain rfl : record.contentHash = k := by simpa using hk
      cases hn
      simp only [Bool.or_eq_false_iff] at hvalid
      refine Or.inr ⟨hfresh, rfl, rfl, rfl, rfl, hvalid, fun k' hk' => ?_⟩
      simp [Store.bumpRevision, Std.TreeMap.getElem?_insert, hk'.symm]
    · exact Or.inl ⟨n', hn, rfl, rfl, rfl⟩
  | computed entry hseq => exact Or.inl ⟨n', hn, rfl, rfl, rfl⟩
  | migrated entries hentries =>
    simp only [Store.migrateAllLegacyNodes, hentries] at hn
    refine Or.inl ⟨n', ?_, rfl, rfl, rfl⟩
    split at hn <;> exact hn
  | pinned node entry reason hentry =>
    simp only [Store.bumpRevision, Std.TreeMap.getElem?_insert] at hn
    split at hn
    · rename_i hk
      obtain rfl : node = k := by simpa using hk
      cases hn
      exact Or.inl ⟨entry, hentry, rfl, rfl, rfl⟩
    · exact Or.inl ⟨n', hn, rfl, rfl, rfl⟩
  | burned revision state burns aggregated hburns =>
    simp only [Store.bumpRevision, getElem?_burnTotals] at hn
    obtain ⟨n, hold, rfl⟩ := Option.map_eq_some_iff.1 hn
    exact Or.inl ⟨n, hold, rfl, rfl, rfl⟩

theorem Effect.seq_le (h : Effect s s') : s.seq ≤ s'.seq := by
  rcases h with hgrowth | ⟨victims, hvictims⟩
  case evicted => exact le_rfl
  cases hgrowth with
  | inserted | computed => exact Nat.le_succ _
  | migrated entries hentries =>
    simp only [Store.migrateAllLegacyNodes, hentries]
    split <;> exact le_rfl
  | pinned | burned => exact le_rfl

theorem Effect.revision_le (h : Effect s s') (hs : s.revision ≤ U64_MAX) :
    s.revision ≤ s'.revision ∧ s'.revision ≤ U64_MAX := by
  have hbump : ∀ t : Store F, t.revision = s.revision →
      s.revision ≤ t.bumpRevision.revision ∧ t.bumpRevision.revision ≤ U64_MAX := by
    intro t ht
    simp only [Store.bumpRevision, ht]
    omega
  rcases h with hgrowth | ⟨victims, hvictims⟩
  case evicted => exact hbump _ rfl
  cases hgrowth with
  | migrated entries hentries =>
    simp only [Store.migrateAllLegacyNodes, hentries]
    split
    · exact hbump _ rfl
    · exact ⟨le_rfl, hs⟩
  | _ => exact hbump _ rfl

theorem WellFormed.effect (hs : WellFormed s) (h : Effect s s') : WellFormed s' where
  keyed k n' hn' := by
    rcases h.node_origin hn' with ⟨n, hn, hsame⟩ | hnew
    · rw [hsame.record]
      exact hs.keyed k n hn
    · exact hnew.keyed
  valid k n' hn' := by
    rcases h.node_origin hn' with ⟨n, hn, hsame⟩ | hnew
    · rw [hsame.record]
      exact hs.valid k n hn
    · exact hnew.valid
  seq_lt k n' hn' := by
    rcases h.node_origin hn' with ⟨n, hn, hsame⟩ | hnew
    · rw [hsame.seq]
      exact (hs.seq_lt k n hn).trans_le h.seq_le
    · rw [hnew.seq, hnew.next]
      exact Nat.lt_succ_self _
  seq_inj k k' n n' hk hk' hseq := by
    rcases h.node_origin hk with ⟨m, hm, hsame⟩ | hnew <;>
      rcases h.node_origin hk' with ⟨m', hm', hsame'⟩ | hnew'
    · exact hs.seq_inj k k' m m' hm hm' (by rw [← hsame.seq, ← hsame'.seq, hseq])
    · have hlt := hs.seq_lt k m hm
      rw [← hsame.seq, hseq, hnew'.seq] at hlt
      exact absurd hlt (lt_irrefl _)
    · have hlt := hs.seq_lt k' m' hm'
      rw [← hsame'.seq, ← hseq, hnew.seq] at hlt
      exact absurd hlt (lt_irrefl _)
    · by_contra hne
      have hold := hnew.other k' (Ne.symm hne)
      rw [hk', hnew'.absent] at hold
      cases hold

theorem WellFormed.nodup_seqs (hs : WellFormed s) :
    (s.nodes.toList.map fun e => e.2.seq).Nodup := by
  have hkeys : (s.nodes.toList.map Prod.fst).Nodup := by
    rw [Std.TreeMap.map_fst_toList_eq_keys]
    exact Std.TreeMap.nodup_keys
  refine List.Nodup.map_on (fun x hx y hy hseq => ?_) hkeys.of_map
  have hx := Std.TreeMap.mem_toList_iff_getElem?_eq_some.1 hx
  have hy := Std.TreeMap.mem_toList_iff_getElem?_eq_some.1 hy
  have hkey := hs.seq_inj _ _ _ _ hx hy hseq
  rw [← hkey, hx] at hy
  exact Prod.ext hkey (Option.some.inj hy)

theorem WellFormed.effects (hs : WellFormed s) (h : ReflTransGen Effect s s') : WellFormed s' := by
  induction h with
  | refl => exact hs
  | tail _ heff ih => exact ih.effect heff

theorem WellFormed.step {api api' : RecomputeApi F} {a : Action F} (hs : WellFormed api.store)
    (h : step api a = some api') : WellFormed api'.store :=
  hs.effects (step_effects h)

theorem Reaches.wellFormed {edges : List (Edge F)} {defaultCost : F} {api : RecomputeApi F}
    (h : Reaches edges defaultCost api) : WellFormed api.store :=
  Reachable.invariant (P := fun api => WellFormed api.store) WellFormed.new
    (fun _ _ _ hs ht => hs.step ht) h

end

end FrankenSim.Recompute
