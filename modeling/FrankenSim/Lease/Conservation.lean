import FrankenSim.Lease.Operations

/-!
# Conservation over runs

A root starts unconfigured, where it only takes root charges. A configured root
stays sound, so its books add up in every state of every run, and a publication
leaves the prepared state at most once.
-/
namespace FrankenSim.Lease

open Library

namespace Machine

/-! ### Sequence numbers -/

section Sequences

variable {m m' : Machine}

/-- New records carry sequence numbers up to the current one. -/
theorem Sequenced.of {s s' : LeaseState} (h : Sequenced s)
    (hlog : s.log.sequence ≤ s'.log.sequence)
    (hcreated : ∀ record ∈ s'.delegations, record.createdSequence ≤ s'.log.sequence ∨
      ∃ old ∈ s.delegations, old.createdSequence = record.createdSequence)
    (hprepared : ∀ record ∈ s'.publications, record.preparedSequence ≤ s'.log.sequence ∨
      ∃ old ∈ s.publications, old.preparedSequence = record.preparedSequence)
    (hresolved : ∀ record ∈ s'.publications, (∀ q ∈ record.resolvedSequence, q ≤ s'.log.sequence) ∨
      ∃ old ∈ s.publications, old.resolvedSequence = record.resolvedSequence)
    (hsealing : ∀ q ∈ s'.sealSequence, q ∈ s.sealSequence ∨ q ≤ s'.log.sequence) :
    Sequenced s' where
  created := by
    intro record hrecord
    rcases hcreated record hrecord with hle | ⟨old, hold, heq⟩
    · exact hle
    · rw [← heq]
      exact (h.created old hold).trans hlog
  prepared := by
    intro record hrecord
    rcases hprepared record hrecord with hle | ⟨old, hold, heq⟩
    · exact hle
    · rw [← heq]
      exact (h.prepared old hold).trans hlog
  resolved := by
    intro record hrecord
    rcases hresolved record hrecord with hle | ⟨old, hold, heq⟩
    · exact hle
    · rw [← heq]
      exact fun q hq => (h.resolved old hold q hq).trans hlog
  sealing := by
    intro q hq
    rcases hsealing q hq with hold | hle
    · exact (h.sealing q hold).trans hlog
    · exact hle

/-- A change of one record keeps a field that the change keeps. -/
theorem exists_changeRecord {β : Type} (g : DelegationRecord → β)
    {f : DelegationRecord → DelegationRecord} {identity : LeaseIdentity}
    {records : List DelegationRecord} {record : DelegationRecord}
    (hrecord : record ∈ changeRecord identity f records) (hf : ∀ record, g (f record) = g record) :
    ∃ old ∈ records, g old = g record := by
  obtain ⟨old, hold, rfl⟩ := mem_modifyKey.1 hrecord
  refine ⟨old, hold, ?_⟩
  by_cases hk : old.identity = identity
  · rw [if_pos hk, hf]
  · rw [if_neg hk]

theorem exists_changeLender {β : Type} (g : DelegationRecord → β)
    {f : DelegationRecord → DelegationRecord} {lender : Option LeaseIdentity}
    {records : List DelegationRecord} {record : DelegationRecord}
    (hrecord : record ∈ changeLender lender f records) (hf : ∀ record, g (f record) = g record) :
    ∃ old ∈ records, g old = g record := by
  cases lender with
  | none => exact ⟨record, hrecord, rfl⟩
  | some identity => exact exists_changeRecord g hrecord hf

theorem exists_changePublication {β : Type} (g : PublicationRecord → β)
    {f : PublicationRecord → PublicationRecord} {transfer : PreparedTransfer}
    {records : List PublicationRecord} {record : PublicationRecord}
    (hrecord : record ∈ changePublication transfer f records)
    (hf : ∀ record, g (f record) = g record) :
    ∃ old ∈ records, g old = g record := by
  obtain ⟨old, hold, rfl⟩ := mem_modifyKey.1 hrecord
  refine ⟨old, hold, ?_⟩
  by_cases hk : old.transfer = transfer
  · rw [if_pos hk, hf]
  · rw [if_neg hk]

/-- A resolution records the current sequence number. -/
theorem resolved_changePublication {f : PublicationRecord → PublicationRecord}
    {transfer : PreparedTransfer} {records : List PublicationRecord} {record : PublicationRecord}
    (hrecord : record ∈ changePublication transfer f records) {sequence bound : ℕ}
    (hf : ∀ record, (f record).resolvedSequence = some sequence) (hle : sequence ≤ bound) :
    (∀ q ∈ record.resolvedSequence, q ≤ bound) ∨
      ∃ old ∈ records, old.resolvedSequence = record.resolvedSequence := by
  obtain ⟨old, hold, rfl⟩ := mem_modifyKey.1 hrecord
  by_cases hk : old.transfer = transfer
  · left
    intro q hq
    rw [if_pos hk, hf] at hq
    cases hq
    exact hle
  · right
    rw [if_neg hk]
    exact ⟨old, hold, rfl⟩

theorem Sequenced.effect (h : Sequenced m.state) {a : Action} (he : Effect m a m') :
    Sequenced m'.state := by
  cases he with
  | granted hopen hfits hgranted hlog =>
    exact h.of hlog (fun record hrecord => .inr ⟨record, hrecord, rfl⟩)
      (fun record hrecord => .inr ⟨record, hrecord, rfl⟩)
      (fun record hrecord => .inr ⟨record, hrecord, rfl⟩) fun q hq => .inl hq
  | released hcharge howner hlog =>
    exact h.of hlog (fun record hrecord => .inr ⟨record, hrecord, rfl⟩)
      (fun record hrecord => .inr ⟨record, hrecord, rfl⟩)
      (fun record hrecord => .inr ⟨record, hrecord, rfl⟩) fun q hq => .inl hq
  | dropped hunchanged => exact hunchanged.sequenced h
  | lent hopen howner hlender hchild hfresh hroom henabled hcreated hlog =>
    refine h.of hlog ?_ (fun record hrecord => .inr ⟨record, hrecord, rfl⟩)
      (fun record hrecord => .inr ⟨record, hrecord, rfl⟩) fun q hq => .inl hq
    intro record hrecord
    rcases List.mem_append.1 hrecord with hold | hnew
    · exact .inr (exists_changeLender DelegationRecord.createdSequence hold fun _ => rfl)
    · rw [List.mem_singleton.1 hnew]
      exact .inl hcreated
  | grantedIn hopen hrecord hlive hfits hgranted hpooled hlog =>
    exact h.of hlog
      (fun record hmem =>
        .inr (exists_changeRecord DelegationRecord.createdSequence hmem fun _ => rfl))
      (fun record hrecord => .inr ⟨record, hrecord, rfl⟩)
      (fun record hrecord => .inr ⟨record, hrecord, rfl⟩) fun q hq => .inl hq
  | releasedIn hcharge howner hrecord hlive hlog =>
    exact h.of hlog
      (fun record hmem =>
        .inr (exists_changeRecord DelegationRecord.createdSequence hmem fun _ => rfl))
      (fun record hrecord => .inr ⟨record, hrecord, rfl⟩)
      (fun record hrecord => .inr ⟨record, hrecord, rfl⟩) fun q hq => .inl hq
  | staged hopen hcharge howner hbytes hrecord hlive hpos henvelope hfresh hroom hprepared hresolved
      hsequence hlog =>
    refine h.of hlog (fun record hrecord => .inr ⟨record, hrecord, rfl⟩) ?_ ?_ fun q hq => .inl hq
    · intro record hmem
      rcases List.mem_append.1 hmem with hold | hnew
      · exact .inr ⟨record, hold, rfl⟩
      · rw [List.mem_singleton.1 hnew]
        exact .inl hsequence
    · intro record hmem
      rcases List.mem_append.1 hmem with hold | hnew
      · exact .inr ⟨record, hold, rfl⟩
      · left
        rw [List.mem_singleton.1 hnew, hresolved]
        exact fun q hq => nomatch hq
  | published hrecord hlive hpublication hprepared hreceipt hsequence hlog =>
    exact h.of hlog
      (fun record hmem =>
        .inr (exists_changeRecord DelegationRecord.createdSequence hmem fun _ => rfl))
      (fun record hmem =>
        .inr (exists_changePublication PublicationRecord.preparedSequence hmem fun _ => rfl))
      (fun record hmem => resolved_changePublication hmem (fun _ => rfl) hsequence)
      fun q hq => .inl hq
  | rolledBack hrecord hlive hpublication hprepared hsequence hlog =>
    exact h.of hlog
      (fun record hmem =>
        .inr (exists_changeRecord DelegationRecord.createdSequence hmem fun _ => rfl))
      (fun record hmem =>
        .inr (exists_changePublication PublicationRecord.preparedSequence hmem fun _ => rfl))
      (fun record hmem => resolved_changePublication hmem (fun _ => rfl) hsequence)
      fun q hq => .inl hq
  | destinationClosed hlog =>
    exact h.of hlog (fun record hrecord => .inr ⟨record, hrecord, rfl⟩)
      (fun record hmem =>
        .inr (exists_changePublication PublicationRecord.preparedSequence hmem fun _ => rfl))
      (fun record hmem =>
        .inr (exists_changePublication PublicationRecord.resolvedSequence hmem fun _ => rfl))
      fun q hq => .inl hq
  | returned hrecord hlive hused hchildren hlog =>
    refine h.of hlog ?_
      (fun record hmem => .inr ⟨record, (LeaseState.sortPublications_perm _).subset hmem, rfl⟩)
      (fun record hmem => .inr ⟨record, (LeaseState.sortPublications_perm _).subset hmem, rfl⟩)
      fun q hq => .inl hq
    intro record hmem
    right
    obtain ⟨mid, hmid, heq⟩ :=
      exists_changeRecord DelegationRecord.createdSequence hmem fun _ => rfl
    obtain ⟨old, hold, heq'⟩ :=
      exists_changeLender DelegationRecord.createdSequence hmid fun _ => rfl
    exact ⟨old, hold, heq'.trans heq⟩
  | closed hterminal hsequence hlog =>
    refine h.of hlog
      (fun record hmem => .inr ⟨record, (LeaseState.sortDelegations_perm _).subset hmem, rfl⟩)
      (fun record hmem => .inr ⟨record, (LeaseState.sortPublications_perm _).subset hmem, rfl⟩)
      (fun record hmem => .inr ⟨record, (LeaseState.sortPublications_perm _).subset hmem, rfl⟩) ?_
    intro q hq
    cases hq
    exact .inr hsequence
  | terminal hterminal => exact h

end Sequences

/-! ### Before the configuration -/

/-- An unconfigured root holds root charges only. -/
structure Unconfigured (m : Machine) : Prop where
  rootIdentity : m.state.rootIdentity = none
  rootId : m.state.rootId = none
  delegations : m.state.delegations = []
  publications : m.state.publications = []
  owners : m.owners = []
  prepared : m.prepared = []
  published : m.published = []
  charges : ∀ charge ∈ m.charges, charge.owner = none
  used : m.state.usedBytes = held m.charges (· = none)
  used_le_peak : m.state.usedBytes ≤ m.state.peakBytes
  peak_le_limit : m.state.peakBytes ≤ m.state.limitBytes.getD 0
  direct : m.state.directGrantedBytes = 0 ∧ m.state.directReturnedBytes = 0
  delegated : m.state.delegatedBytes = 0 ∧ m.state.returnedDelegatedBytes = 0
  pooled : m.state.childGrantedBytes = 0 ∧ m.state.childReturnedBytes = 0 ∧
    m.state.childPublishedBytes = 0

section Configuration

variable {m m' : Machine} {root : LeaseIdentity} {limit : ℕ}

theorem Unconfigured.unchanged (h : Unconfigured m) (hm : Unchanged m m') : Unconfigured m' where
  rootIdentity := (hm.part LeaseState.rootIdentity fun _ => rfl).trans h.rootIdentity
  rootId := (hm.part LeaseState.rootId fun _ => rfl).trans h.rootId
  delegations := by
    have hlength := hm.part (fun s => s.delegations.length) fun _ => List.length_map _
    rw [h.delegations] at hlength
    exact List.eq_nil_of_length_eq_zero hlength
  publications := hm.publications_eq.trans h.publications
  owners := List.subset_nil.1 (h.owners ▸ hm.owners)
  prepared := List.subset_nil.1 (h.prepared ▸ hm.prepared)
  published := List.subset_nil.1 (h.published ▸ hm.published)
  charges := fun charge hcharge => h.charges charge (hm.charges hcharge)
  used := by
    rw [hm.held]
    exact (hm.part LeaseState.usedBytes fun _ => rfl).trans h.used
  used_le_peak := by
    have hpart := hm.part (fun s => (s.usedBytes, s.peakBytes)) fun _ => rfl
    simp only [Prod.mk.injEq] at hpart
    rw [hpart.1, hpart.2]
    exact h.used_le_peak
  peak_le_limit := by
    have hpart := hm.part (fun s => (s.peakBytes, s.limitBytes)) fun _ => rfl
    simp only [Prod.mk.injEq] at hpart
    rw [hpart.1, hpart.2]
    exact h.peak_le_limit
  direct := by
    have hpart := hm.part (fun s => (s.directGrantedBytes, s.directReturnedBytes)) fun _ => rfl
    simp only [Prod.mk.injEq] at hpart
    rw [hpart.1, hpart.2]
    exact h.direct
  delegated := by
    have hpart := hm.part (fun s => (s.delegatedBytes, s.returnedDelegatedBytes)) fun _ => rfl
    simp only [Prod.mk.injEq] at hpart
    rw [hpart.1, hpart.2]
    exact h.delegated
  pooled := by
    have hpart := hm.part (fun s => (s.childGrantedBytes, s.childReturnedBytes,
      s.childPublishedBytes)) fun _ => rfl
    simp only [Prod.mk.injEq] at hpart
    rw [hpart.1, hpart.2.1, hpart.2.2]
    exact h.pooled

theorem unconfigured_start (limit : ℕ) : Unconfigured (start limit) where
  rootIdentity := rfl
  rootId := rfl
  delegations := rfl
  publications := rfl
  owners := rfl
  prepared := rfl
  published := rfl
  charges := fun _ hnil => nomatch hnil
  used := rfl
  used_le_peak := Nat.zero_le _
  peak_le_limit := Nat.zero_le _
  direct := ⟨rfl, rfl⟩
  delegated := ⟨rfl, rfl⟩
  pooled := ⟨rfl, rfl, rfl⟩

/-- The configuration of a pristine root is sound. -/
theorem Unconfigured.configure (h : Unconfigured m) (hlimit : m.state.limitBytes.isSome = true)
    (hused : m.state.usedBytes = 0) (hroot : root.isRoot = true) {metadataLimit : ℕ}
    (hmetadata : metadataLimit ≤ MAX_DELEGATION_RECORDS) (rootId : String) (log : RefusalLog) :
    Sound root { m with state := { m.state with
      log, rootIdentity := some root, rootId := some rootId, metadataLimit } } := by
  have hcharges : ∀ identity, held m.charges (· = some identity) = 0 := by
    intro identity
    refine totalWhere_eq_zero.2 fun charge hcharge howner => ?_
    rw [h.charges charge hcharge] at howner
    cases howner
  have hsome : held m.charges (fun owner => owner.isSome) = 0 := by
    refine totalWhere_eq_zero.2 fun charge hcharge howner => ?_
    rw [h.charges charge hcharge] at howner
    cases howner
  have hheld : held m.charges (· = none) = 0 := h.used.symm.trans hused
  constructor
  · constructor
    case rootIdentity => rfl
    case isRoot => exact hroot
    case rootId => rfl
    case limitBytes => exact hlimit
    case metadataLimit => exact hmetadata
    all_goals simp only [h.delegations, h.publications, h.owners, h.prepared, h.published]
    all_goals simp [identities]
    intro charge hcharge
    rw [h.charges charge hcharge]
    simp
  · intro c
    cases c with
    | none =>
      have hpeak := h.peak_le_limit
      simp only [accounts, hused, h.delegations, h.direct, h.delegated, hheld]
      refine ⟨⟨rfl, by norm_num⟩, rfl, Nat.zero_le _, hpeak, rfl, by norm_num, rfl, ?_⟩
      intro hclosed
      cases hclosed
    | some identity =>
      simp only [accounts, h.delegations]
      exact Envelope.balanced_fresh (by norm_num) 0
  · simp only [pool, h.pooled, hsome, h.publications]
    exact ⟨rfl, by norm_num⟩
  · simp [h.delegations]
  · simp [h.pooled, h.publications, transferred]

/-- What a step of an unconfigured root can do. -/
inductive EarlyEffect (m : Machine) : Machine → Prop
  | unchanged {m' : Machine} (h : Unchanged m m') : EarlyEffect m m'
  | configured {root : LeaseIdentity} {rootId : String} {metadataLimit : ℕ} {log : RefusalLog}
      (hlimit : m.state.limitBytes.isSome = true) (hused : m.state.usedBytes = 0)
      (hroot : root.isRoot = true) (hmetadata : metadataLimit ≤ MAX_DELEGATION_RECORDS)
      (hlog : m.state.log.sequence ≤ log.sequence) :
      EarlyEffect m { m with state := { m.state with
        log, rootIdentity := some root, rootId := some rootId, metadataLimit } }
  | granted {bytes : ℕ} {log : RefusalLog}
      (hfits : m.state.limitBytes.isSome = true →
        m.state.usedBytes + bytes ≤ m.state.limitBytes.getD 0)
      (hlog : m.state.log.sequence ≤ log.sequence) :
      EarlyEffect m { m with
        state := { m.state with
          usedBytes := m.state.usedBytes + bytes
          peakBytes := max m.state.peakBytes (m.state.usedBytes + bytes)
          requestedBytes := m.state.requestedBytes + bytes
          log }
        charges := ⟨none, bytes⟩ :: m.charges }
  | released {charge : LeaseCharge} {log : RefusalLog} (hcharge : charge ∈ m.charges)
      (hlog : m.state.log.sequence ≤ log.sequence) :
      EarlyEffect m { m with
        state := { m.state with usedBytes := m.state.usedBytes - charge.bytes, log }
        charges := m.charges.erase charge }

theorem configurationRefusal_none {s : LeaseState} {rootId : String} {metadataLimit : ℕ}
    (h : s.configurationRefusal root rootId metadataLimit = none) :
    s.limitBytes.isSome = true ∧ s.usedBytes = 0 ∧ root.isRoot = true ∧
      metadataLimit ≤ MAX_DELEGATION_RECORDS := by
  simp only [LeaseState.configurationRefusal, guard_none, not_or, not_not, not_lt,
    Bool.or_eq_true, Bool.not_eq_true', Bool.not_eq_true, Bool.not_eq_false,
    Option.isNone_eq_false_iff] at h
  obtain ⟨hlimit, -, -, ⟨hused, -⟩, ⟨hroot, -⟩, ⟨-, hmetadata⟩, -⟩ := h
  exact ⟨hlimit, hused, hroot, hmetadata⟩

/-- A quiet change with the handles kept. -/
theorem EarlyEffect.quiet {s : LeaseState} (h : Quiet m.state s) :
    EarlyEffect m { m with state := s } :=
  .unchanged (h.unchanged (List.Subset.refl _) (List.Subset.refl _) (List.Subset.refl _))

theorem EarlyEffect.enableDelegation {rootIdentity : LeaseIdentity} {rootId : String}
    {metadataLimit : ℕ} {allocates : Bool} {response : Response}
    (hexec : m.exec (.enableDelegation rootIdentity rootId metadataLimit allocates) =
      some (response, m')) : EarlyEffect m m' := by
  unfold exec LeaseState.enableDelegation at hexec
  have hrefused : ∀ event, Quiet m.state (m.state.nextSequence.2.recordSemanticRefusal event) :=
    fun event => (Quiet.nextSequence m.state).trans (Quiet.recordSemanticRefusal _ event)
  cases hrefusal : (m.state.nextSequence.2).configurationRefusal rootIdentity rootId
      metadataLimit with
  | some reason =>
    simp only [hrefusal] at hexec
    cases hexec
    exact .quiet (hrefused _)
  | none =>
    obtain ⟨hlimit, hused, hroot, hmetadata⟩ := configurationRefusal_none hrefusal
    cases allocates with
    | false =>
      simp only [hrefusal, Bool.not_false, if_true] at hexec
      cases hexec
      exact .quiet (hrefused _)
    | true =>
      simp only [hrefusal, Bool.not_true, Bool.false_eq_true, if_false] at hexec
      cases hexec
      exact .configured hlimit hused hroot hmetadata m.state.log.sequence_le_next

theorem Unconfigured.reserve (h : Unconfigured m) {what : String} {bytes : ℕ}
    {response : Response} (hexec : m.exec (.reserve what bytes) = some (response, m')) :
    EarlyEffect m m' := by
  unfold exec LeaseState.reserve at hexec
  cases hrefusal : (m.state.nextSequence.2).reserveRefusal bytes with
  | some reason =>
    simp only [hrefusal] at hexec
    cases hexec
    refine .quiet ((Quiet.nextSequence m.state).trans ?_)
    by_cases hreason : reason = .counterOverflow
    · rw [if_pos hreason]
      exact (Quiet.overflow _).trans (Quiet.recordRootRefusal _ _ _ _ _ _)
    · rw [if_neg hreason]
      exact Quiet.recordRootRefusal _ _ _ _ _ _
  | none =>
    obtain ⟨-, -, hfits⟩ := reserveRefusal_none hrefusal
    have hid : ¬(m.state.nextSequence.2).rootId.isSome = true := by
      have hnone : (m.state.nextSequence.2).rootId = none := h.rootId
      simp [hnone]
    simp only [hrefusal] at hexec
    rw [if_neg hid] at hexec
    cases hexec
    exact .granted hfits m.state.log.sequence_le_next

/-- A root without an identity refuses its envelopes. -/
theorem Unconfigured.delegateCapacity (h : Unconfigured m) {identity : LeaseIdentity}
    {logicalPath : String} {capacityBytes : ℕ} {response : Response}
    (hexec : m.exec (.delegateCapacity none identity logicalPath capacityBytes) =
      some (response, m')) : EarlyEffect m m' := by
  have hroot : (m.state.nextSequence.2).rootIdentity = none := h.rootIdentity
  have hrefusal : ∃ reason, (m.state.nextSequence.2).delegationRefusal none none identity
      logicalPath capacityBytes = some reason := by
    unfold LeaseState.delegationRefusal
    by_cases hlimit : (m.state.nextSequence.2).limitBytes.isNone = true
    · exact ⟨_, if_pos hlimit⟩
    · refine ⟨.unconfiguredRoot, ?_⟩
      simp only [if_neg hlimit, hroot]
  obtain ⟨reason, hrefusal⟩ := hrefusal
  unfold exec LeaseState.delegateFrom at hexec
  simp only [Option.map_none, hrefusal, Option.elim_none] at hexec
  cases hexec
  refine .quiet ((Quiet.nextSequence m.state).trans ?_)
  exact (Quiet.ite (Quiet.overflow _) (Quiet.log _ le_rfl)).trans (Quiet.recordSemanticRefusal _ _)

theorem Unconfigured.dropCharge (h : Unconfigured m) {charge : LeaseCharge}
    {response : Response} (hmem : charge ∈ m.charges)
    (hexec : m.exec (.dropCharge charge) = some (response, m')) : EarlyEffect m m' := by
  have howner := h.charges charge hmem
  unfold exec at hexec
  simp only [howner] at hexec
  by_cases hbytes : charge.bytes = 0
  · rw [if_pos hbytes] at hexec
    cases hexec
    exact .unchanged (unchanged_drop hmem hbytes (Quiet.log m.state le_rfl))
  · rw [if_neg hbytes] at hexec
    have hle : charge.bytes ≤ m.state.usedBytes := by
      rw [h.used]
      exact bytes_le_held hmem (· = none) howner
    have hid : ¬(m.state.nextSequence.2).rootId.isSome = true := by
      have hnone : (m.state.nextSequence.2).rootId = none := h.rootId
      simp [hnone]
    have hused : ¬(m.state.nextSequence.2).usedBytes < charge.bytes := not_lt.2 hle
    unfold LeaseState.releaseRaw at hexec
    simp only at hexec
    rw [if_neg hused, if_neg hid] at hexec
    cases hexec
    exact .released hmem m.state.log.sequence_le_next

/-- A root without an identity is frozen but gives no receipt. -/
theorem Unconfigured.sealRoot (h : Unconfigured m) {response : Response}
    (hexec : m.exec .sealRoot = some (response, m')) : EarlyEffect m m' := by
  have hrefusal : ({ m.state with
      log := m.state.log.nextSequence.2
      sealed := true
      sealSequence := some (m.state.sealSequence.getD m.state.nextSequence.1) } :
        LeaseState).sealRefusal = some .unverifiedRoot := by
    simp [LeaseState.sealRefusal, h.rootIdentity]
  unfold exec at hexec
  cases hterminal : m.state.terminalReceipt with
  | some receipt =>
    have hseal : m.state.sealRoot = some (.ok receipt, m.state) := by
      unfold LeaseState.sealRoot
      rw [hterminal]
    simp only [hseal] at hexec
    cases hexec
    exact .quiet (Quiet.log m.state le_rfl)
  | none =>
    obtain ⟨refusal, event, -, hseal⟩ := sealRoot_refused hterminal rfl rfl hrefusal
    simp only [hseal] at hexec
    cases hexec
    exact .unchanged (unchanged_frozen m event)

theorem Unconfigured.effect (h : Unconfigured m) {a : Action} (hstep : Step m a m') :
    EarlyEffect m m' := by
  obtain ⟨hholds, response, hexec⟩ := hstep
  cases a with
  | enableDelegation => exact .enableDelegation hexec
  | reserve => exact h.reserve hexec
  | delegateCapacity owner =>
    cases owner with
    | none => exact h.delegateCapacity hexec
    | some lease =>
      have hmem : lease ∈ m.owners := hholds lease rfl
      rw [h.owners] at hmem
      cases hmem
  | dropCharge => exact h.dropCharge hholds hexec
  | sealRoot => exact h.sealRoot hexec
  | reserveIn owner site bytes =>
    have hmem : owner ∈ m.owners := hholds
    rw [h.owners] at hmem
    cases hmem
  | prepare charge binding envelope =>
    have hsome := hholds.2
    rw [h.charges charge hholds.1] at hsome
    cases hsome
  | publish transfer =>
    have hmem : transfer ∈ m.prepared := hholds
    rw [h.prepared] at hmem
    cases hmem
  | rollback transfer implicitRollback =>
    have hmem : transfer ∈ m.prepared := hholds
    rw [h.prepared] at hmem
    cases hmem
  | closePublished published implicitClose =>
    have hmem : published ∈ m.published := hholds
    rw [h.published] at hmem
    cases hmem
  | closeOwner owner implicitReturn =>
    have hmem : owner ∈ m.owners := hholds
    rw [h.owners] at hmem
    cases hmem

/-- A machine of a root with a given limit, before or after its configuration. -/
structure Reached (limit : ℕ) (m : Machine) : Prop where
  limitBytes : m.state.limitBytes = some limit
  sequenced : Sequenced m.state
  phase : Unconfigured m ∨ ∃ root, Sound root m

theorem reached_start (limit : ℕ) : Reached limit (start limit) where
  limitBytes := rfl
  sequenced := by constructor <;> simp [start, LeaseState.bounded, LeaseState.new]
  phase := .inl (unconfigured_start limit)

theorem Reached.early (h : Reached limit m) (hu : Unconfigured m) (he : EarlyEffect m m') :
    Reached limit m' := by
  have hkept : ∀ s : LeaseState, s.delegations = m.state.delegations →
      s.publications = m.state.publications → s.sealSequence = m.state.sealSequence →
      m.state.log.sequence ≤ s.log.sequence → Sequenced s := by
    intro s hdelegations hpublications hsealing hlog
    refine h.sequenced.of hlog ?_ ?_ ?_ fun q hq => .inl (hsealing ▸ hq)
    · exact fun record hrecord => .inr ⟨record, hdelegations ▸ hrecord, rfl⟩
    · exact fun record hrecord => .inr ⟨record, hpublications ▸ hrecord, rfl⟩
    · exact fun record hrecord => .inr ⟨record, hpublications ▸ hrecord, rfl⟩
  cases he with
  | unchanged hm =>
    exact ⟨(hm.part LeaseState.limitBytes fun _ => rfl).trans h.limitBytes,
      hm.sequenced h.sequenced, .inl (hu.unchanged hm)⟩
  | configured hlimit hused hroot hmetadata hlog =>
    exact ⟨h.limitBytes, hkept _ rfl rfl rfl hlog,
      .inr ⟨_, hu.configure hlimit hused hroot hmetadata _ _⟩⟩
  | granted hfits hlog =>
    refine ⟨h.limitBytes, hkept _ rfl rfl rfl hlog, .inl ?_⟩
    refine { hu with charges := ?_, used := ?_, used_le_peak := ?_, peak_le_limit := ?_ }
    · intro charge hcharge
      rcases List.mem_cons.1 hcharge with rfl | hold
      · rfl
      · exact hu.charges charge hold
    · simp only [held_cons, if_true, hu.used]
      omega
    · exact le_max_right _ _
    · exact max_le hu.peak_le_limit (hfits (by rw [h.limitBytes]; rfl))
  | released hcharge hlog =>
    refine ⟨h.limitBytes, hkept _ rfl rfl rfl hlog, .inl ?_⟩
    refine { hu with charges := ?_, used := ?_, used_le_peak := ?_ }
    · exact fun charge hcharge => hu.charges charge (List.erase_subset hcharge)
    · have hsum := held_erase hcharge (· = none)
      rw [if_pos (hu.charges _ hcharge)] at hsum
      have hused := hu.used
      simp only
      omega
    · exact (Nat.sub_le _ _).trans hu.used_le_peak

/-- A configured root is sound again after every step. -/
theorem Sound.step (h : Sound root m) (hs : Sequenced m.state) {a : Action}
    (hstep : Step m a m') : ∃ response, m.exec a = some (response, m') ∧ Outcome m a response m' := by
  obtain ⟨hholds, response, hexec⟩ := hstep
  obtain ⟨response', n, hexec', houtcome⟩ := runs h hs hholds
  rw [hexec] at hexec'
  cases hexec'
  exact ⟨response, hexec, houtcome⟩

theorem Effect.limitBytes {a : Action} (he : Effect m a m') :
    m'.state.limitBytes = m.state.limitBytes := by
  cases he with
  | dropped hm => exact hm.part LeaseState.limitBytes fun _ => rfl
  | _ => rfl

theorem Reached.sound (h : Reached limit m) (hm : Sound root m) {a : Action}
    (hstep : Step m a m') : Reached limit m' ∧ Sound root m' := by
  obtain ⟨response, -, houtcome⟩ := hm.step h.sequenced hstep
  cases houtcome with
  | refused hreason hu =>
    have hlimit := hu.part LeaseState.limitBytes fun _ => rfl
    exact ⟨⟨hlimit.trans h.limitBytes, hu.sequenced h.sequenced, .inr ⟨root, hu.sound hm⟩⟩,
      hu.sound hm⟩
  | done he =>
    exact ⟨⟨he.limitBytes.trans h.limitBytes, h.sequenced.effect he, .inr ⟨root, hm.effect he⟩⟩,
      hm.effect he⟩

theorem Reached.step (h : Reached limit m) {a : Action} (hstep : Step m a m') :
    Reached limit m' := by
  rcases h.phase with hu | ⟨root, hm⟩
  · exact h.early hu (hu.effect hstep)
  · exact (h.sound hm hstep).1

theorem reached_run {actions : List Action} (h : Run Step (start limit) actions m) :
    Reached limit m :=
  h.invariant (reached_start limit) fun _ _ _ hreached hstep => hreached.step hstep

/-- A configured root of a run is sound. -/
theorem Reached.sound_of_configured (h : Reached limit m)
    (hroot : m.state.rootIdentity.isSome = true) : ∃ root, Sound root m := by
  rcases h.phase with hu | hm
  · rw [hu.rootIdentity] at hroot
    cases hroot
  · exact hm

end Configuration

/-! ### The books of a configured root -/

/-- The books of one child record add up. -/
structure RecordConserved (m : Machine) (record : DelegationRecord) : Prop where
  used : record.usedBytes = held m.charges (· = some record.identity) +
    transferred m.state.publications .prepared (· = record.identity) +
    nested m.state.delegations (some record.identity)
  used_le : record.usedBytes ≤ record.capacityBytes
  granted : record.allocationGrantedBytes = record.allocationReturnedBytes +
    record.allocationPublishedBytes + held m.charges (· = some record.identity) +
    transferred m.state.publications .prepared (· = record.identity)
  published : record.allocationPublishedBytes =
    transferred m.state.publications .published (· = record.identity)
  delegated : record.delegatedBytes = record.returnedDelegatedBytes +
    nested m.state.delegations (some record.identity)
  liveChildren : record.liveChildren = nestedCount m.state.delegations (some record.identity)

/-- The books of the root, of its children and of its publications add up. -/
structure Conserved (limit : ℕ) (m : Machine) : Prop where
  used : m.state.usedBytes = held m.charges (· = none) + nested m.state.delegations none
  used_le : m.state.usedBytes ≤ limit
  direct : m.state.directGrantedBytes = m.state.directReturnedBytes + held m.charges (· = none)
  delegated : m.state.delegatedBytes =
    m.state.returnedDelegatedBytes + nested m.state.delegations none
  pooled : m.state.childGrantedBytes = m.state.childReturnedBytes + m.state.childPublishedBytes +
    held m.charges (·.isSome) + transferred m.state.publications .prepared fun _ => True
  pooledPublished :
    m.state.childPublishedBytes = transferred m.state.publications .published fun _ => True
  records : ∀ record ∈ m.state.delegations, RecordConserved m record
  identities : (identities m.state.delegations).Nodup
  transfers : (m.state.publications.map PublicationRecord.transfer).Nodup

/-- Publications stay, and leave only the prepared state. -/
def Resolves (m m' : Machine) : Prop :=
  ∀ publication ∈ m.state.publications, ∃ later ∈ m'.state.publications,
    later.transfer = publication.transfer ∧
      (later.disposition = publication.disposition ∨ publication.disposition = .prepared)

/-- Publications that were not there before are prepared. -/
def Introduces (m m' : Machine) : Prop :=
  ∀ publication ∈ m'.state.publications,
    publication.transfer ∉ m.state.publications.map PublicationRecord.transfer →
      publication.disposition = .prepared

section Books

variable {root : LeaseIdentity} {m m' : Machine} {limit : ℕ}

theorem Sound.conserved (h : Sound root m) (hlimit : m.state.limitBytes = some limit) :
    Conserved limit m := by
  obtain ⟨hused, hdirect, -, hpeak, hle⟩ := h.root_eqs
  rw [hlimit] at hle
  have hdelegated := (h.balanced none).delegated_eq
  refine ⟨hused, hpeak.trans hle, hdirect, hdelegated, h.pooled.granted_eq, h.childPublishedBytes,
    ?_, h.nodup, h.nodup_transfers⟩
  intro record hmem
  have hrecord := h.recordOf_of_mem hmem
  obtain ⟨hused, hgranted, -, hpeak, hle⟩ := h.record_eqs hrecord
  have hbalanced := h.envelope hrecord
  exact ⟨hused, hpeak.trans hle, hgranted, h.publishedBytes record hmem, hbalanced.delegated_eq,
    hbalanced.children_eq⟩

theorem Resolves.refl (m : Machine) : Resolves m m :=
  fun publication hmem => ⟨publication, hmem, rfl, .inl rfl⟩

theorem Resolves.trans {m'' : Machine} (h : Resolves m m') (h' : Resolves m' m'') :
    Resolves m m'' := by
  intro publication hmem
  obtain ⟨mid, hmid, htransfer, hdisposition⟩ := h publication hmem
  obtain ⟨later, hlater, htransfer', hdisposition'⟩ := h' mid hmid
  refine ⟨later, hlater, htransfer'.trans htransfer, ?_⟩
  rcases hdisposition with hsame | hprepared
  · rw [← hsame]
    exact hdisposition'
  · exact .inr hprepared

/-- The same publications, in any order. -/
theorem resolves_of_perm (h : m'.state.publications.Perm m.state.publications) :
    Resolves m m' ∧ Introduces m m' := by
  constructor
  · exact fun publication hmem => ⟨publication, h.symm.subset hmem, rfl, .inl rfl⟩
  · exact fun publication hmem hnew =>
      absurd (List.mem_map_of_mem (h.subset hmem)) hnew

/-- A publication changes without changing its transfer. -/
theorem resolves_of_change {transfer : PreparedTransfer}
    {f : PublicationRecord → PublicationRecord}
    (h : m'.state.publications = changePublication transfer f m.state.publications)
    (htransfer : ∀ record, (f record).transfer = record.transfer)
    (hdisposition : ∀ record ∈ m.state.publications, record.transfer = transfer →
      (f record).disposition = record.disposition ∨ record.disposition = .prepared) :
    Resolves m m' ∧ Introduces m m' := by
  constructor
  · intro publication hmem
    rw [h]
    refine ⟨_, mem_modifyKey.2 ⟨publication, hmem, rfl⟩, ?_⟩
    by_cases hk : publication.transfer = transfer
    · rw [if_pos hk]
      exact ⟨htransfer publication, hdisposition publication hmem hk⟩
    · rw [if_neg hk]
      exact ⟨rfl, .inl rfl⟩
  · intro publication hmem hnew
    rw [h] at hmem
    obtain ⟨old, hold, hsame⟩ := exists_changePublication PublicationRecord.transfer hmem htransfer
    rw [← hsame] at hnew
    exact absurd (List.mem_map_of_mem hold) hnew

/-- The publication of a transfer is the only one. -/
theorem Sound.publication_eq (h : Sound root m) {publication record : PublicationRecord}
    {transfer : PreparedTransfer}
    (hpublication : publicationOf m.state.publications transfer = some publication)
    (hmem : record ∈ m.state.publications) (htransfer : record.transfer = transfer) :
    record = publication := by
  have hlookup := lookup_of_mem h.nodup_transfers hmem
  rw [htransfer] at hlookup
  exact Option.some.inj (hlookup.symm.trans hpublication)

theorem Sound.resolves (h : Sound root m) {a : Action} {response : Response}
    (houtcome : Outcome m a response m') : Resolves m m' ∧ Introduces m m' := by
  cases houtcome with
  | refused hreason hu => exact resolves_of_perm (List.Perm.of_eq hu.publications_eq)
  | done he =>
    cases he with
    | dropped hu => exact resolves_of_perm (List.Perm.of_eq hu.publications_eq)
    | staged hopen hcharge howner hbytes hrecord hlive hpos henvelope hfresh hroom hprepared =>
      constructor
      · exact fun publication hmem =>
          ⟨publication, List.mem_append_left _ hmem, rfl, .inl rfl⟩
      · intro publication hmem hnew
        rcases List.mem_append.1 hmem with hold | hlast
        · exact absurd (List.mem_map_of_mem hold) hnew
        · rw [List.mem_singleton.1 hlast]
          exact hprepared
    | published hrecord hlive hpublication hprepared =>
      refine resolves_of_change rfl (fun _ => rfl) fun record hmem htransfer => .inr ?_
      rw [h.publication_eq hpublication hmem htransfer]
      exact hprepared
    | rolledBack hrecord hlive hpublication hprepared =>
      refine resolves_of_change rfl (fun _ => rfl) fun record hmem htransfer => .inr ?_
      rw [h.publication_eq hpublication hmem htransfer]
      exact hprepared
    | destinationClosed =>
      exact resolves_of_change rfl (fun _ => rfl) fun record hmem htransfer => .inl rfl
    | returned => exact resolves_of_perm (LeaseState.sortPublications_perm _)
    | closed => exact resolves_of_perm (LeaseState.sortPublications_perm _)
    | _ => exact resolves_of_perm (List.Perm.refl _)

end Books

/-- In every state of every run, the books of a configured root add up. A step
introduces publications as prepared, and every publication keeps the disposition it
has once it is published or rolled back. -/
theorem conservation {limit : ℕ} {actions : List Action} {m : Machine}
    (h : Run Step (start limit) actions m) (hroot : m.state.rootIdentity.isSome = true) :
    Conserved limit m ∧ (∀ a m', Step m a m' → Introduces m m') ∧
      ∀ later m', Run Step m later m' → Resolves m m' := by
  have hreached := reached_run h
  obtain ⟨root, hsound⟩ := hreached.sound_of_configured hroot
  refine ⟨hsound.conserved hreached.limitBytes, ?_, ?_⟩
  · intro a m' hstep
    obtain ⟨response, -, houtcome⟩ := hsound.step hreached.sequenced hstep
    exact (hsound.resolves houtcome).2
  · intro later m' hlater
    refine hlater.relates (P := fun m => Reached limit m ∧ Sound root m) ⟨hreached, hsound⟩ ?_
      (.refl m) (fun _ _ _ h h' => h.trans h') ?_
    · exact fun _ _ _ hinv hstep => hinv.1.sound hinv.2 hstep
    · intro t a u hinv hstep
      obtain ⟨response, -, houtcome⟩ := hinv.2.step hinv.1.sequenced hstep
      exact (hinv.2.resolves houtcome).1

/-! ### A run -/

/-- The step as a function, for running it. -/
def next (m : Machine) (a : Action) : Option Machine :=
  if m.Holds a then (m.exec a).map Prod.snd else none

theorem step_of_next {m m' : Machine} {a : Action} (h : m.next a = some m') : Step m a m' := by
  unfold next at h
  by_cases hholds : m.Holds a
  · rw [if_pos hholds] at h
    obtain ⟨⟨response, n⟩, hexec, rfl⟩ := Option.map_eq_some_iff.1 h
    exact ⟨hholds, response, hexec⟩
  · rw [if_neg hholds] at h
    cases h

/-- A child of the root with one component. -/
def solverIdentity : LeaseIdentity := ⟨1, 7, 7, 9, [0], by decide⟩

/-- A root charge, and a child that stages a charge for publication. -/
def solverRun : List Action :=
  [.enableDelegation (LeaseIdentity.root 1 7) "op" 4 true,
    .reserve "scratch" 10,
    .delegateCapacity none solverIdentity "op/solver" 40,
    .reserveIn ⟨solverIdentity, "op/solver", 40⟩ "cells" 16,
    .prepare ⟨some solverIdentity, 16⟩ ⟨1, 2, 3, 4⟩ (PublishedTransferEnvelope.payloadOnly 16)]

theorem conservation_solver :
    ∃ m, Run Step (start 100) solverRun m ∧ m.state.rootIdentity.isSome = true ∧
      m.state.usedBytes = 50 ∧ m.state.publications.length = 1 ∧
      50 = held m.charges (· = none) + nested m.state.delegations none := by
  have hrun : (runList next (start 100) solverRun).isSome := by decide +kernel
  obtain ⟨m, hm⟩ := Option.isSome_iff_exists.1 hrun
  have hfacts : ∀ m ∈ runList next (start 100) solverRun,
      m.state.rootIdentity.isSome = true ∧ m.state.usedBytes = 50 ∧
        m.state.publications.length = 1 := by
    decide +kernel
  obtain ⟨hroot, hused, hlength⟩ := hfacts m hm
  have hsteps : Run Step (start 100) solverRun m :=
    (run_of_runList hm).mono fun _ _ _ hnext => step_of_next hnext
  have hconserved := (conservation hsteps hroot).1.used
  exact ⟨m, hsteps, hroot, hused, hlength, hused.symm.trans hconserved⟩

end Machine

end FrankenSim.Lease
