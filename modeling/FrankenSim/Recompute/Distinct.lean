import FrankenSim.Recompute.Preimages

/-!
# No two identities are confused

A stored entry sits under the hash of its own preimage. Where the hash separates
the preimages that an operation compares, an entry found under a hash therefore
belongs to the record or the key that was asked for.
-/
namespace FrankenSim.Recompute

open Library

section Stores

variable {F : Type} [FloatOps F]

theorem NodeRecord.InMemory.normalized {r : NodeRecord F} (h : r.InMemory) :
    (Store.normalized r).InMemory := ⟨h.opId, h.inputHashes, h.params, h.param⟩

theorem observationRefusal_eq {observation : OutputObservation F} {refusal : StoreError}
    (h : Store.observationRefusal observation = some refusal) :
    ∃ reason, refusal = .invalidObservation reason := by
  simp only [Store.observationRefusal, Option.or_eq_some_iff, Option.bind_eq_some_iff] at h
  rcases h with ⟨v, _, hv⟩ | ⟨_, v, _, hv⟩
  · split at hv
    · exact ⟨_, (Option.some.inj hv).symm⟩
    · cases hv
  · split at hv
    · exact ⟨_, (Option.some.inj hv).symm⟩
    · cases hv

variable [HashBytes] {s s' : Store F}

section Keyed

/-- Semantic entries sit under the hash of their own key. -/
def SemanticKeyed (s : Store F) : Prop :=
  ∀ (k : ContentHash) (e : StoredSemanticComputation F), s.semanticNodes[k]? = some e →
    e.key.contentHash = k

omit [FloatOps F] in
theorem SemanticKeyed.new : SemanticKeyed (Store.new F) := by
  intro k e h
  simp [Store.new] at h

omit [FloatOps F] in
theorem keyed_insertAbsent {acc : Std.TreeMap ContentHash (StoredSemanticComputation F) × ℕ}
    (h : ∀ (k : ContentHash) e, acc.1[k]? = some e → e.key.contentHash = k)
    (entry : StoredSemanticComputation F) (k : ContentHash) (e : StoredSemanticComputation F)
    (he : (Store.insertAbsent acc entry).1[k]? = some e) : e.key.contentHash = k := by
  simp only [Store.insertAbsent] at he
  split at he
  · exact h k e he
  · simp only [Std.TreeMap.getElem?_insert] at he
    split at he
    case isTrue hk =>
      cases he
      simpa using hk
    case isFalse => exact h k e he

omit [FloatOps F] in
theorem keyed_foldl_insertAbsent (entries : List (StoredSemanticComputation F)) :
    ∀ (acc : Std.TreeMap ContentHash (StoredSemanticComputation F) × ℕ),
      (∀ (k : ContentHash) e, acc.1[k]? = some e → e.key.contentHash = k) →
        ∀ (k : ContentHash) e, (entries.foldl Store.insertAbsent acc).1[k]? = some e →
          e.key.contentHash = k := by
  induction entries with
  | nil => exact fun _ h => h
  | cons entry entries ih => exact fun _ h => ih _ (keyed_insertAbsent h entry)

theorem SemanticKeyed.effect (hs : SemanticKeyed s) (h : Effect s s') : SemanticKeyed s' := by
  intro k e he
  rcases h with hgrowth | ⟨victims, hvictims⟩
  case evicted =>
    simp only [evict, Store.bumpRevision, Std.TreeMap.getElem?_filter'] at he
    exact hs k e (Option.eq_some_of_filter_eq_some he)
  cases hgrowth with
  | inserted | pinned | burned => exact hs k e he
  | computed entry hseq =>
    simp only [Store.bumpRevision, Std.TreeMap.getElem?_insert] at he
    split at he
    case isTrue hk =>
      cases he
      simpa using hk
    case isFalse => exact hs k e he
  | migrated entries hentries =>
    simp only [Store.migrateAllLegacyNodes, hentries] at he
    have hnodes := keyed_foldl_insertAbsent entries (s.semanticNodes, 0) hs k e
    split at he <;> exact hnodes he

theorem SemanticKeyed.effects (hs : SemanticKeyed s) (h : Relation.ReflTransGen Effect s s') :
    SemanticKeyed s' := by
  induction h with
  | refl => exact hs
  | tail _ heff ih => exact ih.effect heff

theorem SemanticKeyed.step {api api' : RecomputeApi F} {a : Action F}
    (hs : SemanticKeyed api.store) (h : step api a = some api') : SemanticKeyed api'.store :=
  hs.effects (step_effects h)

theorem Reaches.semanticKeyed {edges : List (Edge F)} {defaultCost : F} {api : RecomputeApi F}
    (h : Reaches edges defaultCost api) : SemanticKeyed api.store :=
  Reachable.invariant (P := fun api => SemanticKeyed api.store) SemanticKeyed.new
    (fun _ _ _ hs ht => hs.step ht) h

end Keyed

section Preimages

/-- The hash separates the byte strings in play. -/
def CollisionFree (inputs : Set (List UInt8)) : Prop := Set.InjOn hashBytes inputs

/-- The preimages that `put` and `can_skip` compare: of the record asked for and
of the stored ones, with and without their error fields. -/
def recordPreimages (s : Store F) (record : NodeRecord F) : Set (List UInt8) :=
  {bytes | ∃ r : NodeRecord F,
    (r = record ∨ ∃ (k : ContentHash) (n : StoredNode F), s.nodes[k]? = some n ∧ n.record = r) ∧
      (bytes = r.encoding NODE_RECORD_IDENTITY_DOMAIN ∨
        bytes = (Store.normalized r).encoding NODE_RECORD_IDENTITY_DOMAIN)}

/-- The preimages that `put_computation` compares. -/
def keyPreimages (s : Store F) (key : ComputationKey) : Set (List UInt8) :=
  {bytes | ∃ key' : ComputationKey,
    (key' = key ∨ ∃ (k : ContentHash) (e : StoredSemanticComputation F),
      s.semanticNodes[k]? = some e ∧ e.key = key') ∧ bytes = key'.encoding}

def RecordsInMemory (s : Store F) : Prop :=
  ∀ (k : ContentHash) (n : StoredNode F), s.nodes[k]? = some n → n.record.InMemory

def KeysInMemory (s : Store F) : Prop :=
  ∀ (k : ContentHash) (e : StoredSemanticComputation F), s.semanticNodes[k]? = some e →
    e.key.InMemory

variable {record : NodeRecord F} {k : ContentHash} {n : StoredNode F}

theorem sameRecord_of_contentHash (hfree : CollisionFree (recordPreimages s record))
    (hrecord : record.InMemory) (hstored : RecordsInMemory s) (hn : s.nodes[k]? = some n)
    (hhash : n.record.contentHash = record.contentHash) : SameRecord n.record record := by
  apply NodeRecord.encoding_injective (hstored k n hn) hrecord (hfree _ _ hhash)
  · exact ⟨n.record, .inr ⟨k, n, hn, rfl⟩, .inl rfl⟩
  · exact ⟨record, .inl rfl, .inl rfl⟩

theorem sameIdentity_of_normalized (hfree : CollisionFree (recordPreimages s record))
    (hrecord : record.InMemory) (hstored : RecordsInMemory s) (hn : s.nodes[k]? = some n)
    (hhash : (Store.normalized n.record).contentHash = (Store.normalized record).contentHash) :
    SameIdentity n.record record := by
  have hsame : SameRecord (Store.normalized n.record) (Store.normalized record) := by
    apply NodeRecord.encoding_injective (hstored k n hn).normalized hrecord.normalized
      (hfree _ _ hhash)
    · exact ⟨n.record, .inr ⟨k, n, hn, rfl⟩, .inr rfl⟩
    · exact ⟨record, .inl rfl, .inr rfl⟩
  exact ⟨hsame.opId, hsame.inputHashes, hsame.params, hsame.codeVersionHash, hsame.rngSeed⟩

omit [FloatOps F] in
theorem key_eq_of_contentHash {key : ComputationKey} {e : StoredSemanticComputation F}
    (hfree : CollisionFree (keyPreimages s key)) (hkey : key.InMemory) (hstored : KeysInMemory s)
    (he : s.semanticNodes[k]? = some e) (hhash : e.key.contentHash = key.contentHash) :
    e.key = key := by
  apply ComputationKey.encoding_injective (hstored k e he) hkey (hfree _ _ hhash)
  · exact ⟨e.key, .inr ⟨k, e, he, rfl⟩, rfl⟩
  · exact ⟨key, .inl rfl, rfl⟩

end Preimages

section Outcomes

/-- A record is held to be stored already only when that record is stored. -/
def PutDistinguishes (s : Store F) (record : NodeRecord F) :
    Except StoreError PutOutcome → Prop
  | .ok (.inserted hash) => s.nodes[hash]? = none
  | .ok (.deduped hash) | .error (.determinismViolation hash _ _) =>
    ∃ n, s.nodes[hash]? = some n ∧ SameRecord n.record record
  | .error _ => True

/-- The errors are measured on a stored node of the same identity. -/
def SkipDistinguishes (s : Store F) (record : NodeRecord F) (tolerance : F) :
    SkipDecision F → Prop
  | .hit node slack =>
    ∃ n, s.nodes[node]? = some n ∧ SameIdentity n.record record ∧
      slack = tolerance - (n.record.achievedError + n.burned)
  | .toleranceTightened deficit =>
    ∃ (k : ContentHash) (n : StoredNode F), s.nodes[k]? = some n ∧ SameIdentity n.record record ∧
      deficit = 0 - (tolerance - (n.record.achievedError + n.burned))
  | .invalidTolerance _ | .miss => True

/-- An entry is reused, or replaced, only by a computation of its own key. -/
def ComputationDistinguishes (s : Store F) (key : ComputationKey) :
    Except StoreError PutOutcome → Prop
  | .ok (.inserted hash) => ∀ e, s.semanticNodes[hash]? = some e → e.key = key
  | .ok (.deduped hash) | .error (.determinismViolation hash _ _) =>
    ∃ e, s.semanticNodes[hash]? = some e ∧ e.key = key
  | .error _ => True

variable {record : NodeRecord F}

theorem put_distinguishes (hs : WellFormed s) (hrecord : record.InMemory)
    (hstored : RecordsInMemory s) (hfree : CollisionFree (recordPreimages s record))
    (bytes : List UInt8) : PutDistinguishes s record (s.put record bytes).1 := by
  unfold Store.put
  split
  case isTrue => trivial
  case isFalse =>
    dsimp only
    split
    case h_1 existing hexisting =>
      have hsame : SameRecord existing.record record :=
        sameRecord_of_contentHash hfree hrecord hstored hexisting (hs.keyed _ _ hexisting)
      split <;> exact ⟨existing, hexisting, hsame⟩
    case h_2 hfresh => exact hfresh

/-- What the scan for the best candidate holds on to. -/
theorem foldl_considerSkip (probeHash : ContentHash) :
    ∀ (nodes : List (StoredNode F)) (best : Option (StoredNode F × F)) (P : StoredNode F → Prop),
      (∀ b, best = some b → P b.1 ∧ b.2 = b.1.record.achievedError + b.1.burned) →
      (∀ n ∈ nodes, (Store.normalized n.record).contentHash = probeHash → P n) →
      ∀ b, nodes.foldl (Store.considerSkip probeHash) best = some b →
        P b.1 ∧ b.2 = b.1.record.achievedError + b.1.burned := by
  intro nodes
  induction nodes with
  | nil => exact fun _ _ hbest _ => hbest
  | cons n nodes ih =>
    intro best P hbest hnodes
    apply ih (Store.considerSkip probeHash best n) P
    · intro b hb
      unfold Store.considerSkip at hb
      by_cases hhash : (Store.normalized n.record).contentHash = probeHash
      · have hn := hnodes n List.mem_cons_self hhash
        rw [if_pos hhash] at hb
        cases best with
        | none =>
          cases hb
          exact ⟨hn, rfl⟩
        | some current =>
          simp only at hb
          split at hb
          · cases hb
            exact ⟨hn, rfl⟩
          · exact hbest b hb
      · rw [if_neg hhash] at hb
        exact hbest b hb
    · exact fun m hm => hnodes m (List.mem_cons_of_mem _ hm)

theorem canSkip_distinguishes (hs : WellFormed s) (hrecord : record.InMemory)
    (hstored : RecordsInMemory s) (hfree : CollisionFree (recordPreimages s record))
    (tolerance : F) : SkipDistinguishes s record tolerance (s.canSkip record tolerance) := by
  unfold Store.canSkip
  split
  case isTrue => trivial
  case isFalse =>
    have hbest := foldl_considerSkip (Store.normalized record).contentHash
      (s.nodes.toList.map Prod.snd) none
      (fun n => (∃ k : ContentHash, s.nodes[k]? = some n) ∧ SameIdentity n.record record)
      (fun _ hnone => (nomatch hnone))
      (by
        intro n hn hhash
        obtain ⟨e, he, rfl⟩ := List.mem_map.1 hn
        have hnode := Std.TreeMap.mem_toList_iff_getElem?_eq_some.1 he
        exact ⟨⟨e.1, hnode⟩, sameIdentity_of_normalized hfree hrecord hstored hnode hhash⟩)
    dsimp only
    split
    case h_1 => trivial
    case h_2 stored effectiveError hscan =>
      obtain ⟨⟨⟨k, hk⟩, hsame⟩, herror⟩ := hbest _ hscan
      dsimp only at herror
      subst herror
      split
      · rw [hs.keyed k stored hk]
        exact ⟨stored, hk, hsame, rfl⟩
      · exact ⟨k, stored, hk, hsame, rfl⟩

theorem putComputation_distinguishes {key : ComputationKey} (hs : SemanticKeyed s)
    (hkey : key.InMemory) (hstored : KeysInMemory s) (hfree : CollisionFree (keyPreimages s key))
    (observation : OutputObservation F) (bytes : List UInt8) :
    ComputationDistinguishes s key (s.putComputation key observation bytes).1 := by
  have hfound : ∀ e, s.semanticNodes[key.contentHash]? = some e → e.key = key := fun e he =>
    key_eq_of_contentHash hfree hkey hstored he (hs _ _ he)
  unfold Store.putComputation
  split
  case h_1 refusal hrefusal =>
    obtain ⟨reason, rfl⟩ := observationRefusal_eq hrefusal
    trivial
  case h_2 =>
    dsimp only
    split
    case h_1 existing hexisting =>
      split at hexisting
      · split <;> exact ⟨existing, hexisting, hfound existing hexisting⟩
      · cases hexisting
    case h_2 => exact hfound

/-- A preimage determines its record or key, and a store that was only ever
changed by its operations confuses no two of them. -/
theorem identities_distinguished :
    (∀ r s : NodeRecord F, r.InMemory → s.InMemory →
      r.encoding NODE_RECORD_IDENTITY_DOMAIN = s.encoding NODE_RECORD_IDENTITY_DOMAIN →
        SameRecord r s) ∧
    (∀ key key' : ComputationKey, key.InMemory → key'.InMemory →
      key.encoding = key'.encoding → key = key') ∧
    ∀ (edges : List (Edge F)) (defaultCost : F) (api : RecomputeApi F),
      Reaches edges defaultCost api →
      (∀ record : NodeRecord F, record.InMemory → RecordsInMemory api.store →
        CollisionFree (recordPreimages api.store record) →
          (∀ bytes, PutDistinguishes api.store record (api.store.put record bytes).1) ∧
          ∀ tolerance, SkipDistinguishes api.store record tolerance
            (api.store.canSkip record tolerance)) ∧
      ∀ key : ComputationKey, key.InMemory → KeysInMemory api.store →
        CollisionFree (keyPreimages api.store key) →
          ∀ observation bytes, ComputationDistinguishes api.store key
            (api.store.putComputation key observation bytes).1 := by
  refine ⟨fun r s hr hs h => NodeRecord.encoding_injective hr hs h,
    fun k k' hk hk' h => ComputationKey.encoding_injective hk hk' h, ?_⟩
  intro edges defaultCost api hreach
  constructor
  · intro record hrecord hstored hfree
    exact ⟨put_distinguishes hreach.wellFormed hrecord hstored hfree,
      canSkip_distinguishes hreach.wellFormed hrecord hstored hfree⟩
  · intro key hkey hstored hfree
    exact putComputation_distinguishes hreach.semanticKeyed hkey hstored hfree

end Outcomes

end Stores

section Run

theorem inMemory_plainRecord (opId : String) (h : IsLength (utf8 opId).length) (a r : ℚ) :
    (plainRecord opId a r).InMemory where
  opId := h
  inputHashes := (by decide : IsLength 0)
  params := (by decide : IsLength 0)
  param := by simp [plainRecord]

/-- A computation of one parameter. -/
def pairKey (param : String × String) : ComputationKey where
  opId := "a"
  inputHashes := []
  params := [param]
  policyDeterminismClass := .exactDeterministic
  policyToleranceRole := .none
  effectiveToleranceBits := 0
  rngSeed := 0
  codeVersionHash := toyHash.hashBytes []
  maxIterations := none

theorem inMemory_pairKey {param : String × String} (hname : IsLength (utf8 param.1).length)
    (hvalue : IsLength (utf8 param.2).length) : (pairKey param).InMemory where
  opId := by
    change IsLength (utf8 "a").length
    decide +kernel
  inputHashes := (by decide : IsLength 0)
  params := (by decide : IsLength 1)
  param := by
    simp [pairKey, hname, hvalue]

/-- A store that holds the record of one operation and one computation. -/
def singleStore : Store ExactFloat :=
  let _ := toyHash
  (((Store.new ExactFloat).put (plainRecord "a" 0 1) []).2.putComputation (pairKey ("ab", "c"))
    ⟨artifactContentHash [], none, none, none⟩ []).2

theorem singleStore_record {k : ContentHash} {n : StoredNode ExactFloat}
    (h : singleStore.nodes[k]? = some n) : n.record = plainRecord "a" 0 1 := by
  let _ := toyHash
  have hnodes : singleStore.nodes = (∅ : Std.TreeMap ContentHash (StoredNode ExactFloat)).insert
      (plainRecord "a" 0 1).contentHash
      ⟨plainRecord "a" 0 1, artifactContentHash [], [], 0, 0⟩ := rfl
  rw [hnodes, Std.TreeMap.getElem?_insert] at h
  split at h
  · cases h
    rfl
  · simp at h

theorem singleStore_key {k : ContentHash} {e : StoredSemanticComputation ExactFloat}
    (h : singleStore.semanticNodes[k]? = some e) : e.key = pairKey ("ab", "c") := by
  let _ := toyHash
  have hnodes : singleStore.semanticNodes =
      (∅ : Std.TreeMap ContentHash (StoredSemanticComputation ExactFloat)).insert
        (pairKey ("ab", "c")).contentHash
        ⟨pairKey ("ab", "c"), ⟨artifactContentHash [], none, none, none⟩, [], 1⟩ := rfl
  rw [hnodes, Std.TreeMap.getElem?_insert] at h
  split at h
  · cases h
    rfl
  · simp at h

def singlePreimages : List (List UInt8) :=
  [plainRecord "a" 0 1, plainRecord "a" 0 0, plainRecord "b" 0 1, plainRecord "b" 0 0].map fun r =>
    r.encoding NODE_RECORD_IDENTITY_DOMAIN

theorem collisionFree_singleStore :
    let _ := toyHash
    CollisionFree (recordPreimages singleStore (plainRecord "b" 0 1)) := by
  intro _
  have hsub : ∀ bytes ∈ recordPreimages singleStore (plainRecord "b" 0 1),
      bytes ∈ singlePreimages := by
    rintro bytes ⟨r, rfl | ⟨k, n, hn, rfl⟩, rfl | rfl⟩
    · simp [singlePreimages]
    · simp [singlePreimages, Store.normalized, plainRecord, ExactFloat.zero_def]
    · simp [singlePreimages, singleStore_record hn]
    · simp [singlePreimages, singleStore_record hn, Store.normalized, plainRecord,
        ExactFloat.zero_def]
  have hlist : ∀ x ∈ singlePreimages, ∀ y ∈ singlePreimages,
      toyHash.hashBytes x = toyHash.hashBytes y → x = y := by decide +kernel
  exact fun x hx y hy h => hlist x (hsub x hx) y (hsub y hy) h

theorem collisionFree_singleStore_key :
    let _ := toyHash
    CollisionFree (keyPreimages singleStore (pairKey ("a", "bc"))) := by
  intro _
  have hsub : ∀ bytes ∈ keyPreimages singleStore (pairKey ("a", "bc")),
      bytes ∈ [(pairKey ("a", "bc")).encoding, (pairKey ("ab", "c")).encoding] := by
    rintro bytes ⟨key, rfl | ⟨k, e, he, rfl⟩, rfl⟩
    · simp
    · simp [singleStore_key he]
  have hlist : ∀ x ∈ [(pairKey ("a", "bc")).encoding, (pairKey ("ab", "c")).encoding],
      ∀ y ∈ [(pairKey ("a", "bc")).encoding, (pairKey ("ab", "c")).encoding],
      toyHash.hashBytes x = toyHash.hashBytes y → x = y := by decide +kernel
  exact fun x hx y hy h => hlist x (hsub x hx) y (hsub y hy) h

def singleApi : RecomputeApi ExactFloat := ⟨singleStore, [], ∅, ∅, 0, 0⟩

theorem reaches_singleApi :
    let _ := toyHash
    Reaches [] 0 singleApi := by
  intro _
  let api : RecomputeApi ExactFloat :=
    ⟨((Store.new ExactFloat).put (plainRecord "a" 0 1) []).2, [], ∅, ∅, 0, 0⟩
  have hput : step (RecomputeApi.new (Store.new ExactFloat) [] 0) (.put (plainRecord "a" 0 1) []) =
      some api := by
    rw [step]
    rfl
  have hcomputation : step api (.putComputation (pairKey ("ab", "c"))
      ⟨artifactContentHash [], none, none, none⟩ []) = some singleApi := by
    rw [step, singleApi, singleStore]
  exact ⟨_, (Run.single hput).snoc hcomputation⟩

/-- A record with a number and a string that looks like a tagged number. -/
def taggedRecord (params : List Param) : NodeRecord ExactFloat :=
  { plainRecord "a" 0 1 with params }

theorem inMemory_taggedRecord {params : List Param} (hlength : IsLength params.length)
    (hparams : ∀ p ∈ params, Param.InMemory p) : (taggedRecord params).InMemory where
  opId := by
    change IsLength (utf8 "a").length
    decide +kernel
  inputHashes := (by decide : IsLength 0)
  params := hlength
  param := hparams

theorem identities_distinguished_single :
    let _ := toyHash
    SameRecord (taggedRecord [("x", .int 1), ("y", .str "int:1")])
      (taggedRecord [("y", .str "int:1"), ("x", .int 1)]) ∧
    (pairKey ("ab", "c")).encoding ≠ (pairKey ("a", "bc")).encoding ∧
    ((∀ bytes, PutDistinguishes singleApi.store (plainRecord "b" 0 1)
        (singleApi.store.put (plainRecord "b" 0 1) bytes).1) ∧
      ∀ tolerance, SkipDistinguishes singleApi.store (plainRecord "b" 0 1) tolerance
        (singleApi.store.canSkip (plainRecord "b" 0 1) tolerance)) ∧
    ∀ observation bytes, ComputationDistinguishes singleApi.store (pairKey ("a", "bc"))
      (singleApi.store.putComputation (pairKey ("a", "bc")) observation bytes).1 := by
  intro _
  obtain ⟨hrecords, hkeys, hstore⟩ := identities_distinguished (F := ExactFloat)
  have hstored : RecordsInMemory singleStore := by
    intro k n hn
    rw [singleStore_record hn]
    exact inMemory_plainRecord _ (by decide +kernel) 0 1
  have hrecord := inMemory_plainRecord "b" (by decide +kernel) 0 1
  have hx : Param.InMemory ("x", .int 1) := ⟨by decide +kernel, trivial⟩
  have hy : Param.InMemory ("y", .str "int:1") :=
    ⟨by decide +kernel, (by decide +kernel : IsLength (utf8 "int:1").length)⟩
  have hxy : (taggedRecord [("x", .int 1), ("y", .str "int:1")]).InMemory :=
    inMemory_taggedRecord (by decide) (by simp [hx, hy])
  have hyx : (taggedRecord [("y", .str "int:1"), ("x", .int 1)]).InMemory :=
    inMemory_taggedRecord (by decide) (by simp [hx, hy])
  have hsame := hrecords _ _ hxy hyx (by decide +kernel)
  have habc : (pairKey ("ab", "c")).InMemory :=
    inMemory_pairKey (by decide +kernel) (by decide +kernel)
  have hbca : (pairKey ("a", "bc")).InMemory :=
    inMemory_pairKey (by decide +kernel) (by decide +kernel)
  have hdistinct : (pairKey ("ab", "c")).encoding ≠ (pairKey ("a", "bc")).encoding := by
    intro h
    exact absurd (hkeys _ _ habc hbca h) (by decide)
  have hstoredKey : KeysInMemory singleStore := by
    intro k e he
    rw [singleStore_key he]
    exact habc
  obtain ⟨hput, hcomputation⟩ := hstore [] 0 singleApi reaches_singleApi
  exact ⟨hsame, hdistinct,
    hput (plainRecord "b" 0 1) hrecord hstored collisionFree_singleStore,
    hcomputation (pairKey ("a", "bc")) hbca hstoredKey collisionFree_singleStore_key⟩

end Run

end FrankenSim.Recompute
