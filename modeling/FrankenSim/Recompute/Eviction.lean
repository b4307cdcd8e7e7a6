import FrankenSim.Recompute.WellFormed

/-!
# Eviction safety

Both eviction paths remove a list of unpinned keys and the semantic entries that
carry their sequence numbers, and nothing else. Pins therefore protect a node in
every run, and the capacity path reports what it removed.
-/
namespace FrankenSim.Recompute

open Library Relation

variable {F : Type}

/-- `s'` is `s` without the nodes `ks` and their semantic twins. -/
structure Removed (s s' : Store F) (ks : List ContentHash) : Prop where
  evictable : EvictableKeys s ks
  nodes : ∀ k : ContentHash, s'.nodes[k]? = if k ∈ ks then none else s.nodes[k]?
  semantic : ∀ (h : ContentHash) (e : StoredSemanticComputation F),
    s'.semanticNodes[h]? = some e ↔ s.semanticNodes[h]? = some e ∧
      ∀ k ∈ ks, ∀ n : StoredNode F, s.nodes[k]? = some n → n.seq ≠ e.seq
  seq : s'.seq = s.seq
  size : s'.nodes.size + ks.length = s.nodes.size

theorem size_erase_of_getElem? {nodes : Std.TreeMap ContentHash (StoredNode F)}
    {k : ContentHash} {n : StoredNode F} (hn : nodes[k]? = some n) :
    (nodes.erase k).size + 1 = nodes.size := by
  have hmem : k ∈ nodes := Std.TreeMap.mem_iff_isSome_getElem?.2 (by simp [hn])
  have hpos : 0 < nodes.size := by
    rw [← Std.TreeMap.length_toList]
    exact List.length_pos_of_mem (Std.TreeMap.mem_toList_iff_getElem?_eq_some.2 hn)
  rw [Std.TreeMap.size_erase, if_pos (Std.TreeMap.contains_iff_mem.2 hmem)]
  omega

theorem size_eraseAll (victims : List (ContentHash × ℕ)) :
    ∀ nodes : Std.TreeMap ContentHash (StoredNode F), (victims.map Prod.fst).Nodup →
      (∀ v : ContentHash × ℕ, v ∈ victims → ∃ n, nodes[v.1]? = some n) →
      (victims.foldl (fun nodes (v : ContentHash × ℕ) => nodes.erase v.1) nodes).size +
        victims.length = nodes.size := by
  induction victims with
  | nil => simp
  | cons v victims ih =>
    intro nodes hnodup hall
    obtain ⟨hv, hnodup⟩ := List.nodup_cons.1 hnodup
    obtain ⟨n, hn⟩ := hall v List.mem_cons_self
    have hrest := ih (nodes.erase v.1) hnodup fun u hu => by
      obtain ⟨m, hm⟩ := hall u (List.mem_cons_of_mem _ hu)
      have hne : v.1 ≠ u.1 := fun heq => hv (heq ▸ List.mem_map_of_mem hu)
      exact ⟨m, by simpa [Std.TreeMap.getElem?_erase, hne] using hm⟩
    have hone := size_erase_of_getElem? hn
    rw [List.foldl_cons, List.length_cons]
    omega

theorem Removed.refl (s : Store F) : Removed s s [] where
  evictable := ⟨List.nodup_nil, by simp⟩
  nodes := by simp
  semantic := by simp
  seq := rfl
  size := rfl

/-- Removing one more key, one at a time. -/
theorem Removed.cons {s t s' : Store F} {k : ContentHash} {ks : List ContentHash}
    {n : StoredNode F} (hn : s.nodes[k]? = some n) (hk : EvictableKeys s (k :: ks))
    (hfirst : t = evict s [(k, n.seq)]) (hrest : Removed t s' ks) : Removed s s' (k :: ks) := by
  have hnodes : ∀ k' : ContentHash, t.nodes[k']? = if k = k' then none else s.nodes[k']? := by
    intro k'
    subst hfirst
    simp [evict, Store.bumpRevision, Std.TreeMap.getElem?_erase]
  refine ⟨hk, fun k' => ?_, fun h e => ?_, hrest.seq.trans (by rw [hfirst]; rfl), ?_⟩
  · rw [hrest.nodes, hnodes]
    by_cases hk' : k' ∈ ks
    · simp [hk']
    · by_cases heq : k = k'
      · simp [heq]
      · simp [hk', heq, Ne.symm heq]
  · have hsem : t.semanticNodes[h]? = some e ↔ s.semanticNodes[h]? = some e ∧ e.seq ≠ n.seq := by
      subst hfirst
      simp [evict, Store.bumpRevision]
    rw [hrest.semantic, hsem, and_assoc]
    refine and_congr_right fun _ => ?_
    rw [List.forall_mem_cons]
    refine and_congr ⟨?_, fun h => (h n hn).symm⟩ (forall₂_congr fun k' hk' => ?_)
    · rintro hne m hm
      obtain rfl : n = m := Option.some.inj (hn.symm.trans hm)
      exact hne.symm
    · have hne : k ≠ k' := fun heq => (List.nodup_cons.1 hk.1).1 (heq ▸ hk')
      rw [hnodes, if_neg hne]
  · have hsize : t.nodes.size + 1 = s.nodes.size := by
      subst hfirst
      exact size_erase_of_getElem? hn
    have := hrest.size
    simp only [List.length_cons]
    omega

theorem removed_removeAll {ks : List ContentHash} : ∀ {s : Store F}, EvictableKeys s ks →
    Removed s (RecomputeApi.removeAll s ks) ks := by
  induction ks with
  | nil => exact fun {s} _ => Removed.refl s
  | cons k ks ih =>
    intro s h
    obtain ⟨n, hn, -⟩ := h.2 k List.mem_cons_self
    have hrest : EvictableKeys (s.removeByKey k) ks := removeByKey_eq hn ▸ h.tail
    exact Removed.cons hn h (removeByKey_eq hn) (ih hrest)

/-- Evicting several nodes at once is evicting them one at a time. -/
theorem removed_evict {s : Store F} {victims : List (ContentHash × ℕ)}
    (h : Evictable s victims) : Removed s (evict s victims) (victims.map Prod.fst) where
  evictable := by
    refine ⟨h.nodup, fun k hk => ?_⟩
    obtain ⟨v, hv, rfl⟩ := List.mem_map.1 hk
    obtain ⟨n, hn, hpins, -⟩ := h.unpinned v hv
    exact ⟨n, hn, hpins⟩
  nodes k := getElem?_eraseAll victims k s.nodes
  semantic hash e := by
    have hsem : (evict s victims).semanticNodes[hash]? = some e ↔
        s.semanticNodes[hash]? = some e ∧ e.seq ∉ victims.map Prod.snd := by
      simp [evict, Store.bumpRevision]
    rw [hsem]
    refine and_congr_right fun _ => ⟨fun hnot k hk n hn heq => ?_, fun hall hmem => ?_⟩
    · obtain ⟨v, hv, rfl⟩ := List.mem_map.1 hk
      obtain ⟨m, hm, -, hseq⟩ := h.unpinned v hv
      obtain rfl : n = m := Option.some.inj (hn.symm.trans hm)
      exact hnot (List.mem_map.2 ⟨v, hv, by rw [← hseq, heq]⟩)
    · obtain ⟨v, hv, hseq⟩ := List.mem_map.1 hmem
      obtain ⟨m, hm, -, hmseq⟩ := h.unpinned v hv
      exact hall v.1 (List.mem_map_of_mem hv) m hm (hmseq.trans hseq)
  seq := rfl
  size := by
    rw [List.length_map]
    exact size_eraseAll victims s.nodes h.nodup fun v hv => by
      obtain ⟨n, hn, -⟩ := h.unpinned v hv
      exact ⟨n, hn⟩

/-- How many unpinned nodes are older than a given insertion number. -/
def olderUnpinned (s : Store F) (seq : ℕ) : ℕ :=
  s.nodes.toList.countP fun e => e.2.pins.isEmpty && decide (e.2.seq < seq)

def unpinnedCount (s : Store F) : ℕ := s.nodes.toList.countP fun e => e.2.pins.isEmpty

/-- In a strictly increasing list the first `m` entries are those with fewer than
`m` smaller ones. -/
theorem mem_take_iff_countP {α : Type*} {f : α → ℕ} {x : α} : ∀ {l : List α} {m : ℕ},
    l.Pairwise (fun a b => f a < f b) → x ∈ l →
      (x ∈ l.take m ↔ l.countP (fun y => f y < f x) < m)
  | a :: l, 0, _, _ => by simp
  | a :: l, m + 1, hl, hx => by
    obtain ⟨ha, hl⟩ := List.pairwise_cons.1 hl
    rw [List.take_succ_cons, List.countP_cons]
    rcases List.mem_cons.1 hx with rfl | hx
    · have hzero : l.countP (fun y => f y < f x) = 0 :=
        List.countP_eq_zero.2 fun y hy => by simpa using (ha y hy).le
      simp [hzero]
    · have hlt := ha x hx
      have hne : x ≠ a := fun heq => lt_irrefl _ (heq ▸ hlt)
      rw [List.mem_cons, or_iff_right hne, mem_take_iff_countP hl hx]
      simp [hlt]

section

variable [FloatOps F] [HashBytes] {s s' : Store F}

omit [FloatOps F] [HashBytes] in
theorem perm_unpinnedBySeq (s : Store F) : s.unpinnedBySeq.Perm
    ((s.nodes.toList.filter fun e => e.2.pins.isEmpty).map fun e => (e.1, e.2.seq)) :=
  List.perm_insertionSort _ _

theorem WellFormed.unpinnedBySeq_sorted (hs : WellFormed s) :
    s.unpinnedBySeq.Pairwise fun a b => a.2 < b.2 := by
  have hsorted : s.unpinnedBySeq.Pairwise fun a b => a.2 ≤ b.2 :=
    List.pairwise_insertionSort _ _
  have hnodup : (s.unpinnedBySeq.map Prod.snd).Nodup := by
    refine ((perm_unpinnedBySeq s).map _).nodup_iff.2 ?_
    rw [List.map_map]
    exact hs.nodup_seqs.sublist (List.filter_sublist.map _)
  exact (hsorted.and (List.pairwise_map.1 hnodup)).imp fun h => lt_of_le_of_ne h.1 h.2

omit [FloatOps F] [HashBytes] in
theorem length_unpinnedBySeq (s : Store F) : s.unpinnedBySeq.length = unpinnedCount s := by
  rw [(perm_unpinnedBySeq s).length_eq, List.length_map, unpinnedCount,
    List.countP_eq_length_filter]

omit [FloatOps F] [HashBytes] in
theorem countP_unpinnedBySeq (s : Store F) (seq : ℕ) :
    s.unpinnedBySeq.countP (fun v => v.2 < seq) = olderUnpinned s seq := by
  rw [(perm_unpinnedBySeq s).countP_eq, List.countP_map, List.countP_filter, olderUnpinned]
  exact List.countP_congr fun e _ => by simp [and_comm]

/-- A node leaves exactly when it is unpinned and not among the `keep` youngest
unpinned nodes. -/
theorem WellFormed.mem_victims (hs : WellFormed s) {k : ContentHash} {n : StoredNode F}
    (hn : s.nodes[k]? = some n) (keep : ℕ) :
    k ∈ (s.unpinnedBySeq.take (s.unpinnedBySeq.length - keep)).map Prod.fst ↔
      n.pins = [] ∧ olderUnpinned s n.seq + keep < unpinnedCount s := by
  have hentry : ∀ v ∈ s.unpinnedBySeq, v.1 = k → v = (k, n.seq) ∧ n.pins = [] := by
    intro v hv hk
    obtain ⟨e, he, rfl⟩ := List.mem_map.1 ((perm_unpinnedBySeq s).mem_iff.1 hv)
    obtain ⟨hm, hpins⟩ := unpinned_of_mem he
    dsimp only at hk
    rw [hk] at hm
    obtain rfl : n = e.2 := Option.some.inj (hn.symm.trans hm)
    exact ⟨by rw [hk], hpins⟩
  have hpos : ∀ m, m < s.unpinnedBySeq.length - keep ↔ m + keep < unpinnedCount s := by
    intro m
    rw [length_unpinnedBySeq]
    omega
  constructor
  · intro hmem
    obtain ⟨v, hv, hk⟩ := List.mem_map.1 hmem
    obtain ⟨rfl, hpins⟩ := hentry v (List.mem_of_mem_take hv) hk
    rw [mem_take_iff_countP hs.unpinnedBySeq_sorted (List.mem_of_mem_take hv),
      countP_unpinnedBySeq, hpos] at hv
    exact ⟨hpins, hv⟩
  · rintro ⟨hpins, hold⟩
    have hmem : (k, n.seq) ∈ s.unpinnedBySeq := by
      rw [(perm_unpinnedBySeq s).mem_iff, List.mem_map]
      refine ⟨(k, n), List.mem_filter.2 ⟨?_, by simp [hpins]⟩, rfl⟩
      exact Std.TreeMap.mem_toList_iff_getElem?_eq_some.2 hn
    refine List.mem_map.2 ⟨(k, n.seq), ?_, rfl⟩
    rw [mem_take_iff_countP hs.unpinnedBySeq_sorted hmem, countP_unpinnedBySeq, hpos]
    exact hold

omit [FloatOps F] [HashBytes] in
theorem evictUnpinned_removed {keep count : ℕ} (h : s.evictUnpinned keep = some (count, s')) :
    Removed s s' ((s.unpinnedBySeq.take (s.unpinnedBySeq.length - keep)).map Prod.fst) ∧
      count = (s.unpinnedBySeq.take (s.unpinnedBySeq.length - keep)).length := by
  obtain ⟨c, hc, hs⟩ := Option.map_eq_some_iff.1 h
  have hcount : c = (s.unpinnedBySeq.take (s.unpinnedBySeq.length - keep)).length := by
    unfold Store.countU32 at hc
    split at hc
    · exact (Option.some.inj hc).symm
    · cases hc
  split at hs
  · rename_i hempty
    have hnil : s.unpinnedBySeq.take (s.unpinnedBySeq.length - keep) = [] := by
      simpa using hempty
    obtain ⟨rfl, hs'⟩ := Prod.mk.inj hs
    refine ⟨?_, hcount⟩
    rw [← hs', hnil]
    exact Removed.refl s
  · obtain ⟨rfl, hs'⟩ := Prod.mk.inj hs
    rw [← hs']
    exact ⟨removed_evict (evictable_unpinnedBySeq s _), hcount⟩

omit [HashBytes] in
theorem length_scored (api : RecomputeApi F) :
    api.scored.length + api.pinnedCount = api.store.nodes.size := by
  have hlen : api.scored.length = unpinnedCount api.store := by
    rw [RecomputeApi.scored, List.length_insertionSort, List.length_map, unpinnedCount,
      List.countP_eq_length_filter]
  rw [hlen, ← Std.TreeMap.length_toList,
    api.store.nodes.toList.length_eq_countP_add_countP fun e => e.2.pins.isEmpty]
  rw [unpinnedCount, RecomputeApi.pinnedCount]
  congr 1
  exact List.countP_congr fun e _ => by simp

omit [HashBytes] in
theorem ensureCapacity_cases {api api' : RecomputeApi F} {maxTotal : ℕ}
    {result : Except StoreError ℕ} (h : api.ensureCapacity maxTotal = some (result, api')) :
    ((∃ error, result = .error error) ∧ api' = api) ∨
    ∃ ks, Removed api.store api'.store ks ∧ result = .ok ks.length ∧
      api'.store.nodes.size ≤ maxTotal := by
  unfold RecomputeApi.ensureCapacity at h
  dsimp only at h
  split at h
  · cases h
    exact Or.inl ⟨⟨_, rfl⟩, rfl⟩
  · rename_i hpinned
    obtain ⟨c, hc, hs⟩ := Option.map_eq_some_iff.1 h
    obtain ⟨rfl, rfl⟩ := Prod.mk.inj hs
    have hremoved := removed_removeAll (evictableKeys_scored api
      (api.scored.length - (maxTotal - api.pinnedCount)))
    refine Or.inr ⟨_, hremoved, ?_, ?_⟩
    · unfold Store.countU32 at hc
      split at hc
      · rw [← Option.some.inj hc]
      · cases hc
    · have hsize := hremoved.size
      have hlen := length_scored api
      simp only [List.length_map, List.length_take] at hsize ⊢
      omega

/-- A pinned node survives every effect, and stays pinned. -/
theorem Effect.keeps_pinned (h : Effect s s') {k : ContentHash} {n : StoredNode F}
    (hn : s.nodes[k]? = some n) (hpins : n.pins ≠ []) :
    ∃ n', s'.nodes[k]? = some n' ∧ SameNode n n' ∧ n'.pins ≠ [] := by
  rcases h with hgrowth | ⟨victims, hvictims⟩
  case evicted =>
    refine ⟨n, ?_, ⟨rfl, rfl, rfl⟩, hpins⟩
    have hnot : k ∉ victims.map Prod.fst := by
      intro hk
      obtain ⟨v, hv, rfl⟩ := List.mem_map.1 hk
      obtain ⟨m, hm, hmpins, -⟩ := hvictims.unpinned v hv
      obtain rfl : n = m := Option.some.inj (hn.symm.trans hm)
      exact hpins hmpins
    rw [(removed_evict hvictims).nodes, if_neg hnot, hn]
  cases hgrowth with
  | inserted record artifactHash hvalid hfresh =>
    have hne : record.contentHash ≠ k := by
      rintro rfl
      simp [hn] at hfresh
    exact ⟨n, by simp [Store.bumpRevision, Std.TreeMap.getElem?_insert, hne, hn],
      ⟨rfl, rfl, rfl⟩, hpins⟩
  | computed entry hseq => exact ⟨n, hn, ⟨rfl, rfl, rfl⟩, hpins⟩
  | migrated entries hentries =>
    refine ⟨n, ?_, ⟨rfl, rfl, rfl⟩, hpins⟩
    simp only [Store.migrateAllLegacyNodes, hentries]
    split <;> exact hn
  | pinned node entry reason hentry =>
    by_cases hk : node = k
    · subst hk
      obtain rfl : n = entry := Option.some.inj (hn.symm.trans hentry)
      refine ⟨_, Std.TreeMap.getElem?_insert_self, ⟨rfl, rfl, rfl⟩, fun hnil => ?_⟩
      have hlen := congrArg List.length hnil
      simp at hlen
    · exact ⟨n, by simp [Store.bumpRevision, Std.TreeMap.getElem?_insert, hk, hn],
        ⟨rfl, rfl, rfl⟩, hpins⟩
  | burned revision state burns aggregated hburns =>
    refine ⟨{ n with burned := burnedBy aggregated.toList k n.burned }, ?_,
      ⟨rfl, rfl, rfl⟩, hpins⟩
    simp [Store.bumpRevision, getElem?_burnTotals, hn]

theorem pinned_never_removed {api api' : RecomputeApi F} {as : List (Action F)}
    (h : Run (StepOf step) api as api') {k : ContentHash} {n : StoredNode F}
    (hn : api.store.nodes[k]? = some n) (hpins : n.pins ≠ []) :
    ∃ n', api'.store.nodes[k]? = some n' ∧ SameNode n n' ∧ n'.pins ≠ [] := by
  refine h.invariant (P := fun api' => ∃ n', api'.store.nodes[k]? = some n' ∧ SameNode n n' ∧
    n'.pins ≠ []) ⟨n, hn, ⟨rfl, rfl, rfl⟩, hpins⟩ fun t a u ⟨m, hm, hsame, hmpins⟩ hstep => ?_
  have heffects := step_effects hstep
  generalize u.store = s' at heffects
  induction heffects with
  | refl => exact ⟨m, hm, hsame, hmpins⟩
  | tail _ heff ih =>
    obtain ⟨m', hm', hsame', hpins'⟩ := ih
    obtain ⟨m'', hm'', hsame'', hpins''⟩ := heff.keeps_pinned hm' hpins'
    exact ⟨m'', hm'', ⟨hsame''.record.trans hsame'.record,
      hsame''.artifactHash.trans hsame'.artifactHash, hsame''.seq.trans hsame'.seq⟩, hpins''⟩

omit [FloatOps F] in
theorem foldl_insertAbsent_keeps (entries : List (StoredSemanticComputation F)) {h : ContentHash}
    {e : StoredSemanticComputation F} :
    ∀ acc : Std.TreeMap ContentHash (StoredSemanticComputation F) × ℕ, acc.1[h]? = some e →
      (entries.foldl Store.insertAbsent acc).1[h]? = some e := by
  induction entries with
  | nil => exact fun _ hacc => hacc
  | cons entry entries ih =>
    intro acc hacc
    refine ih _ ?_
    unfold Store.insertAbsent
    dsimp only
    split
    · exact hacc
    · rename_i hfresh
      have hne : entry.key.contentHash ≠ h := by
        rintro rfl
        simp [Std.TreeMap.contains_eq_isSome_getElem?, hacc] at hfresh
      simp [Std.TreeMap.getElem?_insert, hne, hacc]

omit [FloatOps F] [HashBytes] in
/-- A semantic entry that disappears leaves with the node that carries its number. -/
theorem Removed.twin {ks : List ContentHash} (hr : Removed s s' ks) {h : ContentHash}
    {e : StoredSemanticComputation F} (he : s.semanticNodes[h]? = some e)
    (hgone : s'.semanticNodes[h]? = none) :
    ∃ (k : ContentHash) (n : StoredNode F),
      s.nodes[k]? = some n ∧ n.seq = e.seq ∧ s'.nodes[k]? = none := by
  have hnot : ¬ ∀ k ∈ ks, ∀ n : StoredNode F, s.nodes[k]? = some n → n.seq ≠ e.seq := by
    intro hall
    rw [(hr.semantic h e).2 ⟨he, hall⟩] at hgone
    cases hgone
  push Not at hnot
  obtain ⟨k, hk, n, hn, hseq⟩ := hnot
  exact ⟨k, n, hn, hseq, by rw [hr.nodes, if_pos hk]⟩

/-- Without an eviction no semantic entry disappears. -/
theorem Growth.semantic_kept (hgrowth : Growth s s') {h : ContentHash}
    {e : StoredSemanticComputation F} (he : s.semanticNodes[h]? = some e) :
    ∃ e', s'.semanticNodes[h]? = some e' := by
  cases hgrowth with
  | inserted | pinned | burned => exact ⟨e, he⟩
  | computed entry hseq =>
    simp only [Store.bumpRevision, Std.TreeMap.getElem?_insert]
    split
    · exact ⟨entry, rfl⟩
    · exact ⟨e, he⟩
  | migrated entries hentries =>
    have hkeep := foldl_insertAbsent_keeps entries (s.semanticNodes, 0) he
    simp only [Store.migrateAllLegacyNodes, hentries]
    split <;> exact ⟨e, hkeep⟩

theorem evicting_step {api api' : RecomputeApi F} {a : Action F} (ha : a.evicts)
    (h : step api a = some api') : ∃ ks, Removed api.store api'.store ks := by
  cases a with
  | evictUnpinned keep =>
    obtain ⟨r, hr, rfl⟩ := Option.map_eq_some_iff.1 h
    exact ⟨_, (evictUnpinned_removed hr).1⟩
  | ensureCapacity maxTotal =>
    obtain ⟨r, hr, rfl⟩ := Option.map_eq_some_iff.1 h
    rcases ensureCapacity_cases hr with ⟨-, hsame⟩ | ⟨ks, hremoved, -⟩
    · exact ⟨[], hsame ▸ Removed.refl api.store⟩
    · exact ⟨ks, hremoved⟩
  | _ => exact absurd ha id

theorem step_twin {api api' : RecomputeApi F} {a : Action F} (hstep : step api a = some api')
    {h : ContentHash} {e : StoredSemanticComputation F}
    (he : api.store.semanticNodes[h]? = some e) (hgone : api'.store.semanticNodes[h]? = none) :
    ∃ (k : ContentHash) (n : StoredNode F),
      api.store.nodes[k]? = some n ∧ n.seq = e.seq ∧ api'.store.nodes[k]? = none := by
  by_cases ha : a.evicts
  · obtain ⟨ks, hremoved⟩ := evicting_step ha hstep
    exact hremoved.twin he hgone
  · rcases step_growth ha hstep with hsame | hgrowth
    · rw [hsame, he] at hgone
      cases hgone
    · obtain ⟨e', he'⟩ := hgrowth.semantic_kept he
      rw [he'] at hgone
      cases hgone

theorem put_error {record : NodeRecord F} {bytes : List UInt8} {error : StoreError}
    (h : s.put record bytes = (.error error, s')) : s' = s := by
  unfold Store.put at h
  dsimp only at h
  split_ifs at h with hinvalid
  · exact (Prod.mk.inj h).2.symm
  · split at h
    · split at h
      · cases h
      · exact (Prod.mk.inj h).2.symm
    · cases h

theorem putComputation_error {key : ComputationKey} {observation : OutputObservation F}
    {bytes : List UInt8} {error : StoreError}
    (h : s.putComputation key observation bytes = (.error error, s')) : s' = s := by
  unfold Store.putComputation at h
  dsimp only at h
  split at h
  · exact (Prod.mk.inj h).2.symm
  · split at h
    · split at h
      · cases h
      · exact (Prod.mk.inj h).2.symm
    · cases h

omit [FloatOps F] [HashBytes] in
theorem pin_error {node : ContentHash} {reason : PinReason} {error : StoreError}
    (h : s.pin node reason = (.error error, s')) : s' = s := by
  unfold Store.pin at h
  split at h
  · exact (Prod.mk.inj h).2.symm
  · split at h <;> cases h

theorem migrate_error {error : StoreError}
    (h : s.migrateAllLegacyNodes = (.error error, s')) : s' = s := by
  unfold Store.migrateAllLegacyNodes at h
  split at h
  · exact (Prod.mk.inj h).2.symm
  · cases h

/-- Eviction safety in every reachable state. -/
theorem eviction_safe {edges : List (Edge F)} {defaultCost : F} {api : RecomputeApi F}
    (hreach : Reaches edges defaultCost api) :
    (∀ (as : List (Action F)) (api' : RecomputeApi F), Run (StepOf step) api as api' →
      ∀ (k : ContentHash) (n : StoredNode F), api.store.nodes[k]? = some n → n.pins ≠ [] →
        ∃ n', api'.store.nodes[k]? = some n' ∧ SameNode n n' ∧ n'.pins ≠ []) ∧
    (∀ (maxTotal : ℕ) (count : ℕ) (api' : RecomputeApi F),
      api.ensureCapacity maxTotal = some (.ok count, api') →
        api'.store.nodes.size ≤ maxTotal ∧
        ∃ ks, Removed api.store api'.store ks ∧ count = ks.length) ∧
    ((∀ maxTotal error api', api.ensureCapacity maxTotal = some (.error error, api') →
        api' = api) ∧
      (∀ record bytes error s', api.store.put record bytes = (.error error, s') →
        s' = api.store) ∧
      (∀ key observation bytes error s',
        api.store.putComputation key observation bytes = (.error error, s') → s' = api.store) ∧
      (∀ node reason error s', api.store.pin node reason = (.error error, s') →
        s' = api.store) ∧
      ∀ error s', api.store.migrateAllLegacyNodes = (.error error, s') → s' = api.store) ∧
    (∀ (keep count : ℕ) (s' : Store F), api.store.evictUnpinned keep = some (count, s') →
      (∃ ks, Removed api.store s' ks ∧ count = ks.length) ∧
      ∀ (k : ContentHash) (n : StoredNode F), api.store.nodes[k]? = some n →
        (s'.nodes[k]? = none ↔
          n.pins = [] ∧ olderUnpinned api.store n.seq + keep < unpinnedCount api.store)) ∧
    ∀ (a : Action F) (api' : RecomputeApi F), step api a = some api' →
      ∀ (h : ContentHash) (e : StoredSemanticComputation F),
        api.store.semanticNodes[h]? = some e → api'.store.semanticNodes[h]? = none →
        ∃ (k : ContentHash) (n : StoredNode F),
          api.store.nodes[k]? = some n ∧ n.seq = e.seq ∧ api'.store.nodes[k]? = none := by
  have hwf := hreach.wellFormed
  refine ⟨fun as api' hrun k n hn hpins => pinned_never_removed hrun hn hpins, ?_, ⟨?_, ?_, ?_,
    ?_, ?_⟩, ?_, fun a api' hstep h e he hgone => step_twin hstep he hgone⟩
  · intro maxTotal count api' h
    rcases ensureCapacity_cases h with ⟨⟨error, herror⟩, -⟩ | ⟨ks, hremoved, hcount, hsize⟩
    · cases herror
    · exact ⟨hsize, ks, hremoved, Except.ok.inj hcount⟩
  · intro maxTotal error api' h
    rcases ensureCapacity_cases h with ⟨-, hsame⟩ | ⟨ks, -, hcount, -⟩
    · exact hsame
    · cases hcount
  · exact fun record bytes error s' h => put_error h
  · exact fun key observation bytes error s' h => putComputation_error h
  · exact fun node reason error s' h => pin_error h
  · exact fun error s' h => migrate_error h
  · intro keep count s' h
    obtain ⟨hremoved, hcount⟩ := evictUnpinned_removed h
    refine ⟨⟨_, hremoved, by rw [hcount, List.length_map]⟩, fun k n hn => ?_⟩
    rw [← hwf.mem_victims hn, hremoved.nodes]
    by_cases hk : k ∈ (api.store.unpinnedBySeq.take
        (api.store.unpinnedBySeq.length - keep)).map Prod.fst
    · simp only [if_pos hk, true_iff]
      exact hk
    · simp only [if_neg hk, hn]
      simpa using hk

end

/-- Two nodes are stored and migrated, and the older one is pinned. -/
def pinnedRun : List (Action ExactFloat) :=
  let _ := toyHash
  [.put (plainRecord "mesh" 0 1) [1], .put (plainRecord "solve" 0 1) [2],
    .migrateAllLegacyNodes, .pin (plainRecord "mesh" 0 1).contentHash (.contract "c")]

theorem eviction_safe_pinnedRun :
    let _ := toyHash
    ∃ api api' : RecomputeApi ExactFloat, Reaches [] 0 api ∧
      api.ensureCapacity 1 = some (.ok 1, api') ∧ api'.store.nodes.size ≤ 1 ∧
      ∃ n, api'.store.nodes[(plainRecord "mesh" 0 1).contentHash]? = some n ∧ n.pins ≠ [] := by
  intro hash
  have hrun : (runList step (RecomputeApi.new (Store.new ExactFloat) [] 0) pinnedRun).isSome := by
    decide +kernel
  obtain ⟨api, hapi⟩ := Option.isSome_iff_exists.1 hrun
  have hfacts : ∀ api ∈ runList step (RecomputeApi.new (Store.new ExactFloat) [] 0) pinnedRun,
      (api.ensureCapacity 1).map Prod.fst = some (.ok 1) ∧
      (api.store.nodes[(plainRecord "mesh" 0 1).contentHash]?).map (fun n => n.pins) =
        some [.contract "c"] := by
    decide +kernel
  obtain ⟨hcap, hpin⟩ := hfacts api hapi
  obtain ⟨⟨result, api'⟩, hresult, hok⟩ := Option.map_eq_some_iff.1 hcap
  obtain rfl : result = .ok 1 := hok
  obtain ⟨n, hn, hpins⟩ := Option.map_eq_some_iff.1 hpin
  have hreach : Reaches [] 0 api := ⟨_, run_of_runList hapi⟩
  have hsafe := eviction_safe hreach
  have hstep : step api (.ensureCapacity 1) = some api' := by simp [step, hresult]
  obtain ⟨n', hn', -, hpins'⟩ := hsafe.1 _ _ (Run.single hstep) _ n hn (by simp [hpins])
  exact ⟨api, api', hreach, hresult, (hsafe.2.1 1 1 api' hresult).1, n', hn', hpins'⟩

end FrankenSim.Recompute
