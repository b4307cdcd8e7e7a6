import FrankenSim.Lease.Booking

/-!
# Every operation refuses without a trace, or has its effect

The operations of the root on a sound state never panic. A refusal changes only
the log, the refusal counters and the seal, and is never an internal
inconsistency.
-/
namespace FrankenSim.Lease

open Library

/-! ### Guards -/

theorem guard_none {α : Type} {c : Prop} [Decidable c] {reason : α} {rest : Option α} :
    (if c then some reason else rest) = none ↔ ¬c ∧ rest = none := by
  by_cases hc : c <;> simp [hc]

theorem guard_some {α : Type} {c : Prop} [Decidable c] {reason x : α} {rest : Option α} :
    (if c then some reason else rest) = some x ↔ c ∧ reason = x ∨ ¬c ∧ rest = some x := by
  by_cases hc : c <;> simp [hc]

/-! ### What a refusal may change -/

namespace RefusalLog

theorem sequence_le_next (log : RefusalLog) : log.sequence ≤ log.nextSequence.2.sequence := by
  unfold nextSequence
  cases h : checkedAdd 128 log.sequence 1 with
  | none => exact le_rfl
  | some next =>
    obtain ⟨rfl, -⟩ := checkedAdd_eq_some.1 h
    exact Nat.le_succ _

theorem next_le_sequence (log : RefusalLog) :
    log.nextSequence.1 ≤ log.nextSequence.2.sequence := by
  unfold nextSequence
  cases h : checkedAdd 128 log.sequence 1 with
  | none =>
    have hle := checkedAdd_eq_none.1 h
    change wordMax 128 ≤ log.sequence
    unfold wordMax
    omega
  | some next => exact le_rfl

/-- A sequence number without an overflow is a new one. -/
theorem lt_next (log : RefusalLog) (h : log.nextSequence.2.counterOverflowed = false) :
    log.sequence < log.nextSequence.1 := by
  unfold nextSequence at h ⊢
  cases hadd : checkedAdd 128 log.sequence 1 with
  | none =>
    rw [hadd] at h
    cases h
  | some next =>
    obtain ⟨rfl, -⟩ := checkedAdd_eq_some.1 hadd
    exact Nat.lt_succ_self _

@[simp] theorem sequence_incrementInvariantViolation (log : RefusalLog) :
    log.incrementInvariantViolation.sequence = log.sequence := by
  unfold incrementInvariantViolation
  split <;> rfl

@[simp] theorem sequence_countSemanticRefusal (log : RefusalLog) :
    log.countSemanticRefusal.sequence = log.sequence := by
  unfold countSemanticRefusal
  split <;> rfl

@[simp] theorem sequence_countRefusedBytes (log : RefusalLog) (bytes : ℕ) :
    (log.countRefusedBytes bytes).sequence = log.sequence := by
  unfold countRefusedBytes
  split <;> rfl

@[simp] theorem sequence_recordSemanticRefusal (log : RefusalLog) (terminal : Bool)
    (event : RefusalEvent) :
    (log.recordSemanticRefusal terminal event).sequence = log.sequence := by
  unfold recordSemanticRefusal
  by_cases hterminal : terminal = true
  · rw [if_pos hterminal]
    split <;> rfl
  · rw [if_neg hterminal]
    cases event.requestedBytes <;> simp

@[simp] theorem sequence_countRefusal (log : RefusalLog) (refusal : LeaseRefusal) :
    (log.countRefusal refusal).sequence = log.sequence := by
  unfold countRefusal
  dsimp only
  split <;> rfl

end RefusalLog

/-- Only the log and the refusal counters changed. -/
structure Quiet (s s' : LeaseState) : Prop where
  books : s'.books = s.books
  sequence : s.log.sequence ≤ s'.log.sequence
  sealed : s'.sealed = s.sealed
  sealing : s'.sealSequence = s.sealSequence
  terminal : s'.terminalReceipt = s.terminalReceipt

namespace Quiet

variable {s s' s'' : LeaseState}

theorem trans (h : Quiet s s') (h' : Quiet s' s'') : Quiet s s'' where
  books := h'.books.trans h.books
  sequence := h.sequence.trans h'.sequence
  sealed := h'.sealed.trans h.sealed
  sealing := h'.sealing.trans h.sealing
  terminal := h'.terminal.trans h.terminal

theorem log (s : LeaseState) {log : RefusalLog} (h : s.log.sequence ≤ log.sequence) :
    Quiet s { s with log } := ⟨rfl, h, rfl, rfl, rfl⟩

theorem nextSequence (s : LeaseState) : Quiet s s.nextSequence.2 :=
  log s s.log.sequence_le_next

theorem overflow (s : LeaseState) : Quiet s s.overflow := log s le_rfl

theorem incrementInvariantViolation (s : LeaseState) : Quiet s s.incrementInvariantViolation :=
  log s (RefusalLog.sequence_incrementInvariantViolation s.log).ge

theorem recordSemanticRefusal (s : LeaseState) (event : RefusalEvent) :
    Quiet s (s.recordSemanticRefusal event) :=
  log s (RefusalLog.sequence_recordSemanticRefusal s.log _ event).ge

theorem books_modifyRecord {identity : LeaseIdentity} {f : DelegationRecord → DelegationRecord}
    (hf : ∀ record, (f record).account = record.account) :
    (s.modifyRecord identity f).books = s.books := by
  have hmap : (modifyKey DelegationRecord.identity identity f s.delegations).map
      DelegationRecord.account = s.delegations.map DelegationRecord.account :=
    map_modifyKey fun record _ _ => hf record
  simp only [LeaseState.books, LeaseState.modifyRecord, hmap]

theorem countRecordRefusal (s : LeaseState) (identity : LeaseIdentity) (bytes : ℕ) :
    Quiet s (s.countRecordRefusal identity bytes) := by
  unfold LeaseState.countRecordRefusal
  split
  · exact log s le_rfl
  · split
    · refine ⟨books_modifyRecord ?_, le_rfl, rfl, rfl, rfl⟩
      exact fun _ => rfl
    · exact overflow s

theorem recordRootRefusal (s : LeaseState) (what : String) (bytes used : ℕ)
    (reason : LeaseRefusalReason) (sequence : ℕ) :
    Quiet s (s.recordRootRefusal what bytes used reason sequence).2 := by
  unfold LeaseState.recordRootRefusal
  refine (log s ?_).trans (recordSemanticRefusal _ _)
  exact (RefusalLog.sequence_countRefusal s.log _).ge

theorem ite {c : Prop} [Decidable c] (h : Quiet s s') (h' : Quiet s s'') :
    Quiet s (if c then s' else s'') := by
  by_cases hc : c
  · rwa [if_pos hc]
  · rwa [if_neg hc]

/-- A quiet change with the handles kept or consumed. -/
theorem unchanged {m : Machine} (h : Quiet m.state s') {owners : List DelegatedMemoryLease}
    {prepared : List PreparedTransfer} {published : List PublishedTransferReceipt}
    (howners : owners ⊆ m.owners) (hprepared : prepared ⊆ m.prepared)
    (hpublished : published ⊆ m.published) :
    m.Unchanged ⟨s', owners, m.charges, prepared, published⟩ where
  books := h.books
  held := fun _ => rfl
  owners := howners
  charges := List.Subset.refl _
  prepared := hprepared
  published := hpublished
  sequence := h.sequence
  sealed := fun hsealed => h.sealed.trans hsealed
  sealing := fun _ hsequence => Or.inl (h.sealing ▸ hsequence)
  terminal := h.terminal

end Quiet

namespace Machine

/-- The result of an action. -/
inductive Outcome (m : Machine) (a : Action) : Response → Machine → Prop
  | refused {refusal : Refusal} {m' : Machine} (hreason : refusal.conservationMismatch = false)
      (h : m.Unchanged m') : Outcome m a (.error refusal) m'
  | done {m' : Machine} (h : Effect m a m') : Outcome m a (.ok ()) m'

/-- The action runs, and what its result is. -/
def Runs (m : Machine) (a : Action) : Prop :=
  ∃ response m', m.exec a = some (response, m') ∧ Outcome m a response m'

variable {root : LeaseIdentity} {m : Machine}

/-- A refusal that leaves the handles alone. -/
theorem Outcome.quiet {a : Action} {refusal : Refusal} {s : LeaseState}
    (hreason : refusal.conservationMismatch = false) (h : Quiet m.state s) :
    Outcome m a (.error refusal) { m with state := s } :=
  .refused hreason (h.unchanged (List.Subset.refl _) (List.Subset.refl _) (List.Subset.refl _))

theorem runs_enableDelegation (h : Sound root m) (rootIdentity : LeaseIdentity) (rootId : String)
    (metadataLimit : ℕ) (allocates : Bool) :
    m.Runs (.enableDelegation rootIdentity rootId metadataLimit allocates) := by
  have hconfigured : ∃ reason, (m.state.nextSequence.2).configurationRefusal rootIdentity rootId
      metadataLimit = some reason := by
    unfold LeaseState.configurationRefusal
    have hsome : (m.state.nextSequence.2).rootIdentity.isSome = true :=
      congrArg Option.isSome h.rootIdentity
    by_cases hlimit : (m.state.nextSequence.2).limitBytes.isNone = true
    · exact ⟨_, if_pos hlimit⟩
    · rw [if_neg hlimit]
      by_cases hsealed : (m.state.nextSequence.2).sealed = true
      · exact ⟨_, if_pos hsealed⟩
      · rw [if_neg hsealed]
        exact ⟨_, if_pos hsome⟩
  obtain ⟨reason, hreason⟩ := hconfigured
  unfold Runs exec LeaseState.enableDelegation
  simp only [hreason]
  refine ⟨_, _, rfl, .quiet rfl ?_⟩
  exact (Quiet.nextSequence m.state).trans (Quiet.recordSemanticRefusal _ _)

theorem reserveRefusal_none {s : LeaseState} {bytes : ℕ} (h : s.reserveRefusal bytes = none) :
    s.sealed = false ∧ (s.rootId.isSome = true → s.directGrantedBytes + bytes < 2 ^ 128) ∧
      (s.limitBytes.isSome = true → s.usedBytes + bytes ≤ s.limitBytes.getD 0) := by
  simp only [LeaseState.reserveRefusal, guard_none, Bool.or_eq_true, Bool.and_eq_true,
    Option.isNone_iff_eq_none, checkedAdd_eq_none, not_or, not_and, not_le,
    Bool.not_eq_true] at h
  obtain ⟨hsealed, ⟨⟨-, -⟩, hgranted⟩, hfits, -⟩ := h
  refine ⟨hsealed, hgranted, fun hlimit => ?_⟩
  obtain ⟨limit, hlimit⟩ := Option.isSome_iff_exists.1 hlimit
  cases hadd : checkedAdd 64 s.usedBytes bytes with
  | none => simp [hadd] at hfits
  | some next =>
    obtain ⟨rfl, -⟩ := checkedAdd_eq_some.1 hadd
    simp only [hadd, hlimit, Option.all_some, Option.any_some, decide_eq_false_iff_not,
      not_lt] at hfits
    simpa [hlimit] using hfits

theorem runs_reserve (h : Sound root m) (what : String) (bytes : ℕ) :
    m.Runs (.reserve what bytes) := by
  unfold Runs exec LeaseState.reserve
  cases hrefusal : (m.state.nextSequence.2).reserveRefusal bytes with
  | some reason =>
    simp only [hrefusal]
    refine ⟨_, _, rfl, .quiet rfl ?_⟩
    refine (Quiet.nextSequence m.state).trans ?_
    by_cases hreason : reason = .counterOverflow
    · rw [if_pos hreason]
      exact (Quiet.overflow _).trans (Quiet.recordRootRefusal _ _ _ _ _ _)
    · rw [if_neg hreason]
      exact Quiet.recordRootRefusal _ _ _ _ _ _
  | none =>
    obtain ⟨hopen, hgranted, hfits⟩ := reserveRefusal_none hrefusal
    simp only [hrefusal]
    have hid : (m.state.nextSequence.2).rootId.isSome = true := h.rootId
    rw [if_pos hid]
    exact ⟨_, _, rfl, .done (.granted hopen (hfits h.limitBytes) (hgranted hid)
      m.state.log.sequence_le_next)⟩

/-- Dropping a charge without bytes only changes the log. -/
theorem unchanged_drop {charge : LeaseCharge} (hcharge : charge ∈ m.charges)
    (hbytes : charge.bytes = 0) {s : LeaseState} (h : Quiet m.state s) :
    m.Unchanged { m with state := s, charges := m.charges.erase charge } where
  books := h.books
  held := by
    intro p _
    have hsum := held_erase hcharge p
    rw [hbytes, ite_self, zero_add] at hsum
    exact hsum
  owners := List.Subset.refl _
  charges := List.erase_subset
  prepared := List.Subset.refl _
  published := List.Subset.refl _
  sequence := h.sequence
  sealed := fun hsealed => h.sealed.trans hsealed
  sealing := fun _ hsequence => Or.inl (h.sealing ▸ hsequence)
  terminal := h.terminal

theorem runs_dropCharge (h : Sound root m) {charge : LeaseCharge} (hcharge : charge ∈ m.charges) :
    m.Runs (.dropCharge charge) := by
  unfold Runs exec
  cases howner : charge.owner with
  | none =>
    simp only [howner]
    by_cases hbytes : charge.bytes = 0
    · rw [if_pos hbytes]
      exact ⟨_, _, rfl, .done (.dropped (unchanged_drop hcharge hbytes (Quiet.log _ le_rfl)))⟩
    · rw [if_neg hbytes]
      obtain ⟨hused, hgranted, hlt, -⟩ := h.root_eqs
      have hheld := bytes_le_held hcharge (· = none) howner
      refine ⟨_, _, rfl, .done ?_⟩
      have hrelease : (m.state.releaseRaw charge.bytes).2 = { m.state with
          usedBytes := m.state.usedBytes - charge.bytes
          directReturnedBytes := m.state.directReturnedBytes + charge.bytes
          log := m.state.log.nextSequence.2 } := by
        have hid : (m.state.nextSequence.2).rootId.isSome = true := h.rootId
        have hfits : ¬(m.state.nextSequence.2).usedBytes < charge.bytes := by
          change ¬m.state.usedBytes < charge.bytes
          omega
        have hadd : checkedAdd 128 (m.state.nextSequence.2).directReturnedBytes charge.bytes =
            some (m.state.directReturnedBytes + charge.bytes) := by
          apply checkedAdd_of_lt
          change m.state.directReturnedBytes + charge.bytes < 2 ^ 128
          omega
        unfold LeaseState.releaseRaw
        simp only [if_neg hfits, if_pos hid, hadd]
        rfl
      rw [hrelease]
      exact .released hcharge howner m.state.log.sequence_le_next
  | some identity =>
    simp only [howner]
    obtain ⟨record, hrecord, -⟩ := exists_record (h.charges charge hcharge identity howner)
    obtain ⟨hused, hgranted, hlt, -⟩ := h.record_eqs hrecord
    have hheld := bytes_le_held hcharge (· = some identity) howner
    have hsome := bytes_le_held hcharge (·.isSome) (by rw [howner]; rfl)
    have hpooled := h.pooled.granted_eq
    have hpoollt := h.pooled.granted_lt
    simp only [pool] at hpooled hpoollt
    have hrecord' : (m.state.nextSequence.2).record? identity = some record := hrecord
    refine ⟨_, _, rfl, .done ?_⟩
    unfold LeaseState.releaseDelegated
    simp only [hrecord']
    cases hdisposition : record.disposition with
    | returned =>
      have hclosed := (h.envelope hrecord).closed_empty (by
        simp [DelegationRecord.envelope, hdisposition])
      have hzero : record.usedBytes = 0 := hclosed.1
      rw [if_pos (Or.inl (by simp))]
      refine .dropped (unchanged_drop hcharge (by omega) ?_)
      exact (Quiet.nextSequence m.state).trans (Quiet.incrementInvariantViolation _)
    | live =>
      have hfits : ¬((DelegationDisposition.live ≠ .live) ∨ record.usedBytes < charge.bytes) := by
        simp only [ne_eq, not_true_eq_false, false_or]
        omega
      have hadd : checkedAdd 128 record.allocationReturnedBytes charge.bytes =
          some (record.allocationReturnedBytes + charge.bytes) := by
        apply checkedAdd_of_lt
        omega
      have hadd' : checkedAdd 128 (m.state.nextSequence.2).childReturnedBytes charge.bytes =
          some (m.state.childReturnedBytes + charge.bytes) := by
        apply checkedAdd_of_lt
        change m.state.childReturnedBytes + charge.bytes < 2 ^ 128
        omega
      rw [if_neg hfits]
      simp only [hadd, hadd']
      exact .releasedIn hcharge howner hrecord hdisposition m.state.log.sequence_le_next

theorem lt_of_isNone {width a b : ℕ} (h : (checkedAdd width a b).isNone = false) :
    a + b < 2 ^ width := by
  by_contra hle
  rw [checkedAdd_eq_none.2 (not_lt.1 hle)] at h
  cases h

/-- A sum that passed the capacity check fits the limit. -/
theorem fits_of_check {used bytes limit : ℕ}
    (h : ((checkedAdd 64 used bytes).all fun next => decide (limit < next)) = false) :
    used + bytes ≤ limit := by
  cases hadd : checkedAdd 64 used bytes with
  | none => simp [hadd] at h
  | some next =>
    obtain ⟨rfl, -⟩ := checkedAdd_eq_some.1 hadd
    simpa [hadd] using h

theorem delegationRefusal_none {s : LeaseState} {parentIdentity : Option LeaseIdentity}
    {parentPath : Option String} {identity : LeaseIdentity} {logicalPath : String}
    {capacityBytes : ℕ} (hroot : s.rootIdentity = some root)
    (h : s.delegationRefusal parentIdentity parentPath identity logicalPath capacityBytes = none) :
    s.sealed = false ∧ identity.isDirectChildOf (parentIdentity.getD root) = true ∧
      identity ∉ identities s.delegations ∧ s.delegations.length < s.metadataLimit ∧
      (parentIdentity.isSome = true →
        (parentIdentity.bind s.record?).all
          (fun record => decide (record.disposition = .returned)) = false) ∧
      ((checkedAdd 64 (s.lender parentIdentity).1 capacityBytes).all fun next =>
        (s.lender parentIdentity).2.all fun limit => decide (limit < next)) = false ∧
      (parentIdentity.isNone = true → s.delegatedBytes + capacityBytes < 2 ^ 128) ∧
      ∀ record ∈ parentIdentity.bind s.record?, record.delegatedBytes + capacityBytes < 2 ^ 128 := by
  unfold LeaseState.delegationRefusal at h
  simp only [hroot, guard_none] at h
  obtain ⟨-, h⟩ := h
  cases hid : s.rootId with
  | none => simp [hid] at h
  | some rootId =>
    simp only [hid, guard_none, Bool.not_eq_true, Bool.not_eq_false', List.any_eq_false,
      Bool.or_eq_false_iff, Bool.and_eq_false_imp, decide_eq_true_eq, not_le] at h
    obtain ⟨hopen, hchild, -, hfresh, -, hroom, hlive, hfits, ⟨⟨-, hdelegated⟩, hparent⟩, -⟩ := h
    refine ⟨hopen, hchild, ?_, hroom, hlive, hfits, fun hnone => lt_of_isNone (hdelegated hnone), ?_⟩
    · intro hmem
      obtain ⟨record, hrecord, hidentity⟩ := List.mem_map.1 hmem
      exact hfresh record hrecord hidentity
    · intro record hrecord
      rw [Option.mem_def.1 hrecord, Option.any_some, Bool.or_eq_false_iff] at hparent
      exact lt_of_isNone hparent.1

/-- An owner handle names a record with its capacity. -/
theorem Sound.owner_record (h : Sound root m) {owner : DelegatedMemoryLease}
    (howner : owner ∈ m.owners) : ∃ record,
      recordOf m.state.delegations owner.identity = some record ∧
        record.capacityBytes = owner.capacityBytes := by
  obtain ⟨record, hmem, hidentity, hcapacity⟩ := h.owners owner howner
  refine ⟨record, ?_, hcapacity⟩
  rw [← hidentity]
  exact h.recordOf_of_mem hmem

theorem runs_delegateCapacity (h : Sound root m) {owner : Option DelegatedMemoryLease}
    (howner : ∀ lease ∈ owner, lease ∈ m.owners) (identity : LeaseIdentity) (logicalPath : String)
    (capacityBytes : ℕ) : m.Runs (.delegateCapacity owner identity logicalPath capacityBytes) := by
  unfold Runs exec LeaseState.delegateFrom
  cases hrefusal : (m.state.nextSequence.2).delegationRefusal
      (owner.map DelegatedMemoryLease.identity) (owner.map DelegatedMemoryLease.logicalPath)
      identity logicalPath capacityBytes with
  | some reason =>
    simp only [hrefusal]
    refine ⟨_, _, rfl, .quiet rfl ?_⟩
    refine (Quiet.nextSequence m.state).trans (Quiet.trans ?_ (Quiet.recordSemanticRefusal _ _))
    have hoverflow : ∀ s : LeaseState, Quiet s
        (if reason = .counterOverflow then s.overflow else s) := fun s =>
      Quiet.ite (Quiet.overflow s) (Quiet.log s le_rfl)
    cases owner with
    | none => exact hoverflow _
    | some lease => exact (hoverflow _).trans (Quiet.countRecordRefusal _ _ _)
  | none =>
    simp only [hrefusal]
    have hroot : (m.state.nextSequence.2).rootIdentity = some root := h.rootIdentity
    obtain ⟨hopen, hchild, hfresh, hroom, hlive, hfits, hdelegated, hparent⟩ :=
      delegationRefusal_none hroot hrefusal
    refine ⟨_, _, rfl, .done ?_⟩
    cases owner with
    | none =>
      refine .lent hopen rfl (fun _ hnone => nomatch hnone) ?_ hfresh hroom ?_
        m.state.log.next_le_sequence m.state.log.sequence_le_next
      · intro other hother
        rw [h.rootIdentity] at hother
        cases hother
        exact hchild
      · obtain ⟨limit, hlimit⟩ := Option.isSome_iff_exists.1 h.limitBytes
        have hlender : (m.state.nextSequence.2).lender none = (m.state.usedBytes, some limit) :=
          congrArg (Prod.mk m.state.usedBytes) hlimit
        simp only [Option.map_none, hlender, Option.all_some] at hfits
        refine ⟨rfl, ?_, hdelegated rfl⟩
        have hle := fits_of_check hfits
        simpa [accounts, hlimit] using hle
    | some lease =>
      obtain ⟨record, hrecord, hcapacity⟩ := h.owner_record (howner lease rfl)
      refine .lent hopen rfl ?_ ?_ hfresh hroom ?_
        m.state.log.next_le_sequence m.state.log.sequence_le_next
      · intro parent hparent
        cases hparent
        exact mem_identities hrecord
      · intro other hother
        rw [h.rootIdentity] at hother
        cases hother
        exact hchild
      · have hrecord' : (m.state.nextSequence.2).record? lease.identity = some record := hrecord
        have hlender : (m.state.nextSequence.2).lender (some lease.identity) =
            (record.usedBytes, some record.capacityBytes) := by
          simp only [LeaseState.lender, hrecord']
        simp only [Option.map_some, Option.bind_some, hrecord', hlender, Option.all_some,
          decide_eq_false_iff_not] at hlive hfits hparent
        rw [Option.map_some, accounts_some hrecord]
        refine ⟨?_, fits_of_check hfits, hparent record rfl⟩
        simpa [DelegationRecord.envelope] using hlive rfl

theorem delegatedReservationRefusal_none {s : LeaseState} {record : DelegationRecord}
    {capacityBytes bytes : ℕ}
    (h : s.delegatedReservationRefusal record capacityBytes bytes = none) :
    s.sealed = false ∧ record.disposition = .live ∧
      record.allocationGrantedBytes + bytes < 2 ^ 128 ∧ s.childGrantedBytes + bytes < 2 ^ 128 ∧
      record.usedBytes + bytes ≤ capacityBytes := by
  simp only [LeaseState.delegatedReservationRefusal, guard_none, Bool.or_eq_true, not_or,
    Bool.not_eq_true] at h
  obtain ⟨hopen, hlive, ⟨⟨-, hgranted⟩, hpooled⟩, hfits, -⟩ := h
  refine ⟨hopen, ?_, lt_of_isNone hgranted, lt_of_isNone hpooled, fits_of_check hfits⟩
  cases hdisposition : record.disposition with
  | live => rfl
  | returned => exact absurd hdisposition hlive

theorem runs_reserveIn (h : Sound root m) {owner : DelegatedMemoryLease} (howner : owner ∈ m.owners)
    (site : String) (bytes : ℕ) : m.Runs (.reserveIn owner site bytes) := by
  obtain ⟨record, hrecord, hcapacity⟩ := h.owner_record howner
  obtain ⟨rootId, hid⟩ := Option.isSome_iff_exists.1 h.rootId
  have hroot : (m.state.nextSequence.2).rootIdentity = some root := h.rootIdentity
  have hid' : (m.state.nextSequence.2).rootId = some rootId := hid
  have hrecord' : (m.state.nextSequence.2).record? owner.identity = some record := hrecord
  unfold Runs exec LeaseState.reserveDelegatedCharge
  cases hrefusal : (m.state.nextSequence.2).delegatedReservationRefusal record
      owner.capacityBytes bytes with
  | some reason =>
    simp only [hroot, hid', hrecord', hrefusal, Option.bind_eq_bind, Option.bind_some,
      Option.pure_def]
    refine ⟨_, _, rfl, .quiet rfl ?_⟩
    refine (Quiet.nextSequence m.state).trans (Quiet.trans ?_ (Quiet.recordSemanticRefusal _ _))
    have hoverflow : ∀ s : LeaseState, Quiet s
        (if reason = .counterOverflow then s.overflow else s) := fun s =>
      Quiet.ite (Quiet.overflow s) (Quiet.log s le_rfl)
    exact (hoverflow _).trans (Quiet.countRecordRefusal _ _ _)
  | none =>
    simp only [hroot, hid', hrecord', hrefusal, Option.bind_eq_bind, Option.bind_some,
      Option.pure_def]
    obtain ⟨hopen, hlive, hgranted, hpooled, hfits⟩ := delegatedReservationRefusal_none hrefusal
    exact ⟨_, _, rfl, .done (.grantedIn hopen hrecord hlive (hfits.trans hcapacity.ge) hgranted
      hpooled m.state.log.sequence_le_next)⟩

/-- A preparation refuses for no inconsistency, and otherwise has its facts. -/
theorem prepareRefusal_spec (s : LeaseState) {child : DelegationRecord} {bytes : ℕ}
    (hused : bytes ≤ child.usedBytes) (binding : PublishedTransferBinding)
    (envelope : PublishedTransferEnvelope) :
    s.prepareRefusal child bytes binding envelope ≠ some .conservationMismatch ∧
      (s.prepareRefusal child bytes binding envelope = none →
        s.sealed = false ∧ child.disposition = .live ∧ 0 < bytes ∧
          envelope.totalBytes = some bytes ∧
          binding ∉ s.publications.map PublicationRecord.binding ∧
          s.publications.length < s.metadataLimit) := by
  constructor
  · intro h
    simp only [LeaseState.prepareRefusal, guard_some, reduceCtorEq, and_false, false_or,
      and_true, or_false] at h
    omega
  · intro h
    simp only [LeaseState.prepareRefusal, guard_none, Bool.not_eq_true, List.any_eq_false,
      decide_eq_true_eq, not_not, not_le] at h
    obtain ⟨hopen, hlive, hpos, henvelope, hfresh, hroom, -⟩ := h
    refine ⟨hopen, hlive, Nat.pos_of_ne_zero hpos, henvelope, ?_, hroom⟩
    intro hmem
    obtain ⟨record, hrecord, hbinding⟩ := List.mem_map.1 hmem
    exact hfresh record hrecord hbinding

theorem runs_prepare (h : Sound root m) {charge : LeaseCharge} (hcharge : charge ∈ m.charges)
    (hsome : charge.owner.isSome = true) (binding : PublishedTransferBinding)
    (envelope : PublishedTransferEnvelope) : m.Runs (.prepare charge binding envelope) := by
  obtain ⟨identity, howner⟩ := Option.isSome_iff_exists.1 hsome
  obtain ⟨record, hrecord, -⟩ := exists_record (h.charges charge hcharge identity howner)
  obtain ⟨hused, -⟩ := h.record_eqs hrecord
  have hheld := bytes_le_held hcharge (· = some identity) howner
  have hfits : charge.bytes ≤ record.usedBytes := by omega
  obtain ⟨hmismatch, hfacts⟩ :=
    prepareRefusal_spec m.state.nextSequence.2 hfits binding envelope
  have hroot : (m.state.nextSequence.2).rootIdentity = some root := h.rootIdentity
  have hrecord' : (m.state.nextSequence.2).record? identity = some record := hrecord
  unfold Runs exec LeaseState.preparePublishedTransfer
  cases hrefusal : (m.state.nextSequence.2).prepareRefusal record charge.bytes binding
      envelope with
  | some reason =>
    simp only [howner, hroot, hrecord', hrefusal, Option.bind_eq_bind, Option.bind_some,
      Option.pure_def]
    refine ⟨_, _, rfl, .quiet ?_ ?_⟩
    · rw [hrefusal] at hmismatch
      exact decide_eq_false fun hreason => hmismatch (congrArg some hreason)
    · exact (Quiet.nextSequence m.state).trans (Quiet.recordSemanticRefusal _ _)
  | none =>
    simp only [howner, hroot, hrecord', hrefusal, Option.bind_eq_bind, Option.bind_some,
      Option.pure_def]
    obtain ⟨hopen, hlive, hpos, henvelope, hfresh, hroom⟩ := hfacts hrefusal
    refine ⟨_, _, rfl, .done ?_⟩
    rw [← hroot]
    let new : PublicationRecord := {
      parentIdentity := record.parentIdentity
      childIdentity := identity
      binding
      envelope
      bytes := charge.bytes
      preparedSequence := m.state.nextSequence.1 }
    exact @Effect.staged m charge record new _ hopen hcharge howner rfl hrecord hlive hpos
      henvelope hfresh hroom rfl rfl m.state.log.next_le_sequence m.state.log.sequence_le_next

/-! ### Resolutions -/

/-- The record of a child hangs off its parent, or off the root. -/
theorem Shape.not_broken (h : Shape root m) {identity : LeaseIdentity} {record : DelegationRecord}
    (hrecord : recordOf m.state.delegations identity = some record) :
    brokenRelationship root record.parentIdentity identity = false := by
  obtain ⟨hmem, rfl⟩ := mem_of_lookup hrecord
  have hchild := (h.placed record hmem).child
  cases hparent : record.parentIdentity with
  | none =>
    rw [hparent, Option.getD_none] at hchild
    simp [brokenRelationship, h.isRoot, hchild]
  | some parent =>
    rw [hparent, Option.getD_some] at hchild
    simp [brokenRelationship, h.isRoot, hchild]

theorem verify_transferChecks {subject : TransferSubject} {bytes prepared resolved : ℕ}
    (hrelationship : brokenRelationship subject.rootIdentity subject.parentIdentity
      subject.childIdentity = false) (hpos : 0 < bytes)
    (henvelope : subject.envelope.totalBytes = some bytes) (hsequence : prepared < resolved) :
    verify (transferChecks PUBLISHED_TRANSFER_RECEIPT_SCHEMA_VERSION subject subject bytes prepared
      resolved false) = .ok () := by
  apply verify_ok.2
  simp only [transferChecks, List.forall_mem_cons, hrelationship, henvelope, ne_eq,
    not_true_eq_false, decide_false, true_and]
  refine ⟨decide_eq_false (Nat.pos_iff_ne_zero.1 hpos), ?_⟩
  refine ⟨decide_eq_false (not_le.2 hsequence), fun _ hnil => nomatch hnil⟩

theorem published_verifyFor (receipt : PublishedTransferReceipt)
    (h : verify (transferChecks receipt.schemaVersion receipt.subject receipt.subject receipt.bytes
      receipt.preparedSequence receipt.publishedSequence false) = .ok ()) :
    ({ receipt with receiptRoot := receipt.recomputeRoot } :
      PublishedTransferReceipt).verifyFor receipt.subject = .ok () := by
  have hroot : ({ receipt with receiptRoot := receipt.recomputeRoot } :
      PublishedTransferReceipt).recomputeRoot = receipt.recomputeRoot := by
    unfold PublishedTransferReceipt.recomputeRoot
    rfl
  simp only [PublishedTransferReceipt.verifyFor, hroot, ne_eq, not_true_eq_false, decide_false]
  exact h

/-- A resolution refuses for no inconsistency, and otherwise finds a prepared
publication in a live child. -/
theorem resolutionRefusal_spec (h : Sound root m) {transfer : PreparedTransfer}
    {record : DelegationRecord}
    (hrecord : recordOf m.state.delegations transfer.childIdentity = some record)
    (childTotal total : ℕ) :
    (m.state.nextSequence.2).resolutionRefusal record transfer childTotal total ≠
        some .conservationMismatch ∧
      ((m.state.nextSequence.2).resolutionRefusal record transfer childTotal total = none →
        record.disposition = .live ∧
          m.state.log.nextSequence.2.counterOverflowed = false ∧
            ∃ publication, publicationOf m.state.publications transfer = some publication ∧
              publication.disposition = .prepared) := by
  have hfound : ((m.state.nextSequence.2).publication? transfer).all
      (fun record => decide (record.disposition ≠ .prepared)) = false →
      ∃ publication, publicationOf m.state.publications transfer = some publication ∧
        publication.disposition = .prepared := by
    intro hall
    change (publicationOf m.state.publications transfer).all _ = false at hall
    cases hpublication : publicationOf m.state.publications transfer with
    | none => simp [hpublication] at hall
    | some publication => exact ⟨publication, rfl, by simpa [hpublication] using hall⟩
  constructor
  · intro hrefusal
    simp only [LeaseState.resolutionRefusal, guard_some, reduceCtorEq, and_false, false_or,
      and_true, or_false, Bool.not_eq_true] at hrefusal
    obtain ⟨-, hall, hused⟩ := hrefusal
    obtain ⟨publication, hpublication, hprepared⟩ := hfound hall
    have hle := staged_le hpublication hprepared (· = transfer.childIdentity) rfl
    obtain ⟨hsum, -⟩ := h.record_eqs hrecord
    omega
  · intro hrefusal
    simp only [LeaseState.resolutionRefusal, guard_none, Bool.not_eq_true, not_not,
      Bool.or_eq_false_iff] at hrefusal
    obtain ⟨hlive, hall, -, ⟨⟨hoverflow, -⟩, -⟩, -⟩ := hrefusal
    exact ⟨hlive, hoverflow, hfound hall⟩

/-- What the registration of a prepared publication says about its handle. -/
theorem prepared_facts (h : Sound root m) (hs : Sequenced m.state) {transfer : PreparedTransfer}
    {publication : PublicationRecord}
    (hpublication : publicationOf m.state.publications transfer = some publication)
    (hoverflow : m.state.log.nextSequence.2.counterOverflowed = false) :
    0 < transfer.bytes ∧ transfer.envelope.totalBytes = some transfer.bytes ∧
      transfer.preparedSequence < m.state.nextSequence.1 := by
  obtain ⟨hmem, rfl⟩ := mem_of_lookup hpublication
  obtain ⟨hpos, henvelope, -⟩ := h.registered publication hmem
  exact ⟨hpos, henvelope,
    (hs.prepared publication hmem).trans_lt (RefusalLog.lt_next m.state.log hoverflow)⟩

theorem runs_publish (h : Sound root m) (hs : Sequenced m.state) {transfer : PreparedTransfer}
    (htransfer : transfer ∈ m.prepared) : m.Runs (.publish transfer) := by
  obtain ⟨record, hrecord, -⟩ := exists_record (h.prepared transfer htransfer)
  have hroot : (m.state.nextSequence.2).rootIdentity = some root := h.rootIdentity
  have hrecord' : (m.state.nextSequence.2).record? transfer.childIdentity = some record := hrecord
  obtain ⟨hmismatch, hfacts⟩ := resolutionRefusal_spec h hrecord
    record.allocationPublishedBytes (m.state.nextSequence.2).childPublishedBytes
  unfold Runs exec LeaseState.publishPreparedTransfer
  cases hrefusal : (m.state.nextSequence.2).resolutionRefusal record transfer
      record.allocationPublishedBytes (m.state.nextSequence.2).childPublishedBytes with
  | some reason =>
    simp only [hroot, hrecord', hrefusal, Option.bind_eq_bind, Option.bind_some, Option.pure_def]
    refine ⟨_, _, rfl, .quiet ?_ ?_⟩
    · rw [hrefusal] at hmismatch
      exact decide_eq_false fun hreason => hmismatch (congrArg some hreason)
    · exact (Quiet.nextSequence m.state).trans (Quiet.recordSemanticRefusal _ _)
  | none =>
    obtain ⟨hlive, hoverflow, publication, hpublication, hprepared⟩ := hfacts hrefusal
    obtain ⟨hpos, henvelope, hsequence⟩ := prepared_facts h hs hpublication hoverflow
    let seed : PublishedTransferReceipt := ⟨PUBLISHED_TRANSFER_RECEIPT_SCHEMA_VERSION,
      ⟨root, record.parentIdentity, transfer.childIdentity, transfer.binding, transfer.envelope⟩,
      transfer.bytes, transfer.preparedSequence, m.state.nextSequence.1, List.replicate 32 0⟩
    have hverify : ({ seed with receiptRoot := seed.recomputeRoot } :
        PublishedTransferReceipt).verifyFor seed.subject = .ok () :=
      published_verifyFor seed
        (verify_transferChecks (h.not_broken hrecord) hpos henvelope hsequence)
    obtain ⟨receiptRoot, hrootEq⟩ : ∃ receiptRoot, seed.recomputeRoot = receiptRoot := ⟨_, rfl⟩
    rw [hrootEq] at hverify
    have hreceipt := hverify
    simp only [seed] at hreceipt hrootEq
    simp only [hroot, hrecord', hrefusal, Option.bind_eq_bind, Option.bind_some, Option.pure_def,
      hrootEq, hreceipt]
    refine ⟨_, _, rfl, .done ?_⟩
    exact @Effect.published m transfer record publication m.state.nextSequence.1
      { seed with receiptRoot } m.state.log.nextSequence.2 hrecord hlive
      hpublication hprepared hverify m.state.log.next_le_sequence m.state.log.sequence_le_next

theorem rolledBack_verifyFor (receipt : PublishedTransferRollbackReceipt)
    (h : verify (transferChecks receipt.schemaVersion receipt.subject receipt.subject receipt.bytes
      receipt.preparedSequence receipt.rolledBackSequence false) = .ok ()) :
    ({ receipt with receiptRoot := receipt.recomputeRoot } :
      PublishedTransferRollbackReceipt).verifyFor receipt.subject = .ok () := by
  have hroot : ({ receipt with receiptRoot := receipt.recomputeRoot } :
      PublishedTransferRollbackReceipt).recomputeRoot = receipt.recomputeRoot := by
    unfold PublishedTransferRollbackReceipt.recomputeRoot
    rfl
  simp only [PublishedTransferRollbackReceipt.verifyFor, hroot, ne_eq, not_true_eq_false,
    decide_false]
  exact h

/-- A refused resolution of an implicit drop also counts a violation. -/
theorem Quiet.refusedDrop (s : LeaseState) (implicit : Bool) :
    Quiet s (if implicit then s.incrementInvariantViolation else s) :=
  Quiet.ite (Quiet.incrementInvariantViolation s) (Quiet.log s le_rfl)

theorem runs_rollback (h : Sound root m) (hs : Sequenced m.state) {transfer : PreparedTransfer}
    (htransfer : transfer ∈ m.prepared) (implicitRollback : Bool) :
    m.Runs (.rollback transfer implicitRollback) := by
  obtain ⟨record, hrecord, -⟩ := exists_record (h.prepared transfer htransfer)
  have hroot : (m.state.nextSequence.2).rootIdentity = some root := h.rootIdentity
  have hrecord' : (m.state.nextSequence.2).record? transfer.childIdentity = some record := hrecord
  obtain ⟨hmismatch, hfacts⟩ := resolutionRefusal_spec h hrecord
    record.allocationReturnedBytes (m.state.nextSequence.2).childReturnedBytes
  unfold Runs exec LeaseState.rollbackPreparedTransfer
  cases hrefusal : (m.state.nextSequence.2).resolutionRefusal record transfer
      record.allocationReturnedBytes (m.state.nextSequence.2).childReturnedBytes with
  | some reason =>
    simp only [hroot, hrecord', hrefusal, Option.bind_eq_bind, Option.bind_some, Option.pure_def]
    refine ⟨_, _, rfl, .refused ?_ (Quiet.unchanged ?_ (List.Subset.refl _) List.erase_subset
      (List.Subset.refl _))⟩
    · rw [hrefusal] at hmismatch
      exact decide_eq_false fun hreason => hmismatch (congrArg some hreason)
    · exact (Quiet.nextSequence m.state).trans
        ((Quiet.refusedDrop _ implicitRollback).trans (Quiet.recordSemanticRefusal _ _))
  | none =>
    obtain ⟨hlive, hoverflow, publication, hpublication, hprepared⟩ := hfacts hrefusal
    obtain ⟨hpos, henvelope, hsequence⟩ := prepared_facts h hs hpublication hoverflow
    have hverify := rolledBack_verifyFor ⟨PUBLISHED_TRANSFER_RECEIPT_SCHEMA_VERSION,
      ⟨root, record.parentIdentity, transfer.childIdentity, transfer.binding, transfer.envelope⟩,
      transfer.bytes, transfer.preparedSequence, m.state.nextSequence.1, implicitRollback,
      List.replicate 32 0⟩
      (verify_transferChecks (h.not_broken hrecord) hpos henvelope hsequence)
    simp only at hverify
    simp only [hroot, hrecord', hrefusal, Option.bind_eq_bind, Option.bind_some, Option.pure_def,
      hverify]
    exact ⟨_, _, rfl, .done (@Effect.rolledBack m transfer record publication m.state.nextSequence.1
      implicitRollback m.state.log.nextSequence.2 hrecord hlive hpublication hprepared
      m.state.log.next_le_sequence m.state.log.sequence_le_next)⟩

theorem closed_verifyFor (receipt : PublishedTransferCloseReceipt)
    (published : PublishedTransferReceipt)
    (hpublished : published.verifyFor published.subject = .ok ())
    (hschema : receipt.schemaVersion = PUBLISHED_TRANSFER_RECEIPT_SCHEMA_VERSION)
    (hsubject : receipt.subject = published.subject) (hbytes : receipt.bytes = published.bytes)
    (hreceipt : receipt.publishedReceiptRoot = published.receiptRoot)
    (hsequence : receipt.publishedSequence = published.publishedSequence)
    (hlt : receipt.publishedSequence < receipt.closedSequence) :
    ({ receipt with receiptRoot := receipt.recomputeRoot } :
      PublishedTransferCloseReceipt).verifyFor published = .ok () := by
  have hroot : ({ receipt with receiptRoot := receipt.recomputeRoot } :
      PublishedTransferCloseReceipt).recomputeRoot = receipt.recomputeRoot := by
    unfold PublishedTransferCloseReceipt.recomputeRoot
    rfl
  have hchecks : verify [(decide (receipt.schemaVersion ≠
        PUBLISHED_TRANSFER_RECEIPT_SCHEMA_VERSION), "schema_version"),
      (receipt.subject ≠ published.subject || receipt.bytes ≠ published.bytes ||
        receipt.publishedReceiptRoot ≠ published.receiptRoot, "identity"),
      (receipt.publishedSequence ≠ published.publishedSequence ||
        receipt.closedSequence ≤ receipt.publishedSequence, "sequence"),
      (false, "receipt_root")] = .ok () := by
    have hle : ¬receipt.closedSequence ≤ published.publishedSequence := by omega
    apply verify_ok.2
    simp [hschema, hsubject, hbytes, hreceipt, hsequence, hle]
  simp only [PublishedTransferCloseReceipt.verifyFor, hpublished, hroot, ne_eq, not_true_eq_false,
    decide_false]
  exact hchecks

theorem closePublishedRefusal_none {s : LeaseState} {published : PublishedTransferReceipt}
    (h : s.closePublishedRefusal published = none) :
    s.log.counterOverflowed = false ∧ ∃ record ∈ s.publications,
      record.resolvedSequence = some published.publishedSequence := by
  simp only [LeaseState.closePublishedRefusal, guard_none, Bool.not_eq_true] at h
  obtain ⟨hall, hoverflow, -⟩ := h
  refine ⟨hoverflow, ?_⟩
  cases hpublication : s.publication? published.transfer with
  | none => simp [hpublication] at hall
  | some record =>
    simp only [hpublication, Option.all_some, Bool.or_eq_false_iff, decide_eq_false_iff_not,
      ne_eq, not_not] at hall
    exact ⟨record, (mem_of_lookup hpublication).1, hall.1.1.2⟩

theorem runs_closePublished (h : Sound root m) (hs : Sequenced m.state)
    {published : PublishedTransferReceipt} (hpublished : published ∈ m.published)
    (implicitClose : Bool) : m.Runs (.closePublished published implicitClose) := by
  unfold Runs exec LeaseState.closePublishedTransfer
  cases hrefusal : (m.state.nextSequence.2).closePublishedRefusal published with
  | some reason =>
    simp only [hrefusal, Option.pure_def]
    refine ⟨_, _, rfl, .refused ?_ (Quiet.unchanged ?_ (List.Subset.refl _) (List.Subset.refl _)
      List.erase_subset)⟩
    · apply decide_eq_false
      intro hreason
      simp only [LeaseState.recordPublishedTransferRefusal] at hreason
      rw [hreason] at hrefusal
      simp [LeaseState.closePublishedRefusal, guard_some] at hrefusal
    · exact (Quiet.nextSequence m.state).trans
        ((Quiet.refusedDrop _ implicitClose).trans (Quiet.recordSemanticRefusal _ _))
  | none =>
    obtain ⟨hoverflow, record, hrecord, hresolved⟩ := closePublishedRefusal_none hrefusal
    have hlt : published.publishedSequence < m.state.nextSequence.1 :=
      (hs.resolved record hrecord _ hresolved).trans_lt (RefusalLog.lt_next m.state.log hoverflow)
    have hverify := closed_verifyFor ⟨PUBLISHED_TRANSFER_RECEIPT_SCHEMA_VERSION,
      published.subject, published.bytes, published.receiptRoot, published.publishedSequence,
      m.state.nextSequence.1, implicitClose, List.replicate 32 0⟩ published
      (h.receipts published hpublished) rfl rfl rfl rfl rfl hlt
    simp only at hverify
    simp only [hrefusal, Option.pure_def, hverify]
    exact ⟨_, _, rfl, .done (.destinationClosed m.state.log.sequence_le_next)⟩

/-! ### Counts of publications -/

/-- Without prepared publications, the published and the rolled back ones are all. -/
theorem countP_resolved {records : List PublicationRecord} {q : PublicationRecord → Bool}
    (h : ∀ record ∈ records, q record = true → record.disposition ≠ .prepared) :
    (records.countP fun record => q record && record.disposition = .published) +
        (records.countP fun record => q record && record.disposition = .rolledBack) =
      records.countP q := by
  induction records with
  | nil => rfl
  | cons record records ih =>
    have htail := ih fun other hother => h other (List.mem_cons_of_mem _ hother)
    have hhead := h record (List.mem_cons_self ..)
    simp only [List.countP_cons]
    cases hq : q record with
    | false =>
      simp only [Bool.false_and, Bool.false_eq_true, if_false, add_zero]
      exact htail
    | true =>
      cases hdisposition : record.disposition with
      | prepared => exact absurd hdisposition (hhead hq)
      | published =>
        simp
        omega
      | rolledBack =>
        simp
        omega

/-- Publications hold bytes, so their total is zero only when there are none. -/
theorem transferred_eq_zero_iff {records : List PublicationRecord}
    (hpos : ∀ record ∈ records, 0 < record.bytes) (disposition : PublicationDisposition)
    (p : LeaseIdentity → Prop) [DecidablePred p] :
    transferred records disposition p = 0 ↔
      ∀ record ∈ records, ¬(p record.childIdentity ∧ record.disposition = disposition) := by
  rw [transferred, totalWhere_eq_zero]
  constructor
  · intro h record hrecord hq
    exact absurd (h record hrecord ⟨hq.2, hq.1⟩) (hpos record hrecord).ne'
  · intro h record hrecord hq
    exact absurd ⟨hq.2, hq.1⟩ (h record hrecord)

theorem publicationCountMismatch_eq_false {total published rolledBack bytes : ℕ}
    (hsum : published + rolledBack = total) (hlt : total < 2 ^ 64)
    (hzero : bytes = 0 ↔ published = 0) :
    publicationCountMismatch total published rolledBack bytes = false := by
  have hadd : checkedAdd 64 published rolledBack = some total :=
    checkedAdd_eq_some.2 ⟨hsum, hlt⟩
  by_cases hbytes : bytes = 0
  · have hpublished := hzero.1 hbytes
    rw [hpublished] at hadd
    simp [publicationCountMismatch, hadd, hbytes, hpublished]
  · have hpublished : published ≠ 0 := fun h => hbytes (hzero.2 h)
    simp [publicationCountMismatch, hadd, hbytes, hpublished]

theorem Shape.length_lt (h : Shape root m) : m.state.publications.length < 2 ^ 64 := by
  have hle := h.publications_le.trans h.metadataLimit
  unfold MAX_DELEGATION_RECORDS at hle
  omega

/-! ### The return of a child -/

/-- An account without occupied bytes holds, stages and lends nothing. -/
theorem Sound.empty (h : Sound root m) {identity : LeaseIdentity} {record : DelegationRecord}
    (hrecord : recordOf m.state.delegations identity = some record)
    (hused : record.usedBytes = 0) :
    record.allocationReturnedBytes + record.allocationPublishedBytes =
        record.allocationGrantedBytes ∧
      record.delegatedBytes = record.returnedDelegatedBytes ∧
      ∀ publication ∈ m.state.publications, publication.childIdentity = identity →
        publication.disposition ≠ .prepared := by
  obtain ⟨hsum, hgranted, -⟩ := h.record_eqs hrecord
  have hdelegated := (h.envelope hrecord).delegated_eq
  simp only [DelegationRecord.envelope] at hdelegated
  refine ⟨by omega, by omega, ?_⟩
  intro publication hmem hchild hprepared
  have hpos := (h.registered publication hmem).bytes_pos
  have hle : publication.bytes ≤ transferred m.state.publications .prepared (· = identity) :=
    le_totalWhere (g := PublicationRecord.bytes)
      (p := fun record : PublicationRecord =>
        record.disposition = .prepared ∧ record.childIdentity = identity) hmem ⟨hprepared, hchild⟩
  omega

theorem closeRefusal_spec (h : Sound root m) {identity : LeaseIdentity}
    {record : DelegationRecord}
    (hrecord : recordOf m.state.delegations identity = some record) :
    (m.state.nextSequence.2).closeRefusal record ≠ some .conservationMismatch ∧
      ((m.state.nextSequence.2).closeRefusal record = none →
        record.disposition = .live ∧ record.liveChildren = 0 ∧ record.usedBytes = 0 ∧
          m.state.log.nextSequence.2.counterOverflowed = false) := by
  constructor
  · intro hrefusal
    simp only [LeaseState.closeRefusal, guard_some, reduceCtorEq, and_false, false_or, and_true,
      or_false, not_not, Bool.or_eq_true, decide_eq_true_eq] at hrefusal
    obtain ⟨-, -, hused, hmismatch⟩ := hrefusal
    obtain ⟨hsum, hdelegated, -⟩ := h.empty hrecord hused
    have hlt := (h.envelope hrecord).flow.granted_lt
    have hadd : checkedAdd 128 record.allocationReturnedBytes record.allocationPublishedBytes =
        some record.allocationGrantedBytes := checkedAdd_eq_some.2 ⟨hsum, hlt⟩
    rcases hmismatch with hadd' | hdelegated'
    · exact hadd' hadd
    · exact hdelegated' hdelegated
  · intro hrefusal
    simp only [LeaseState.closeRefusal, guard_none, not_not, Bool.not_eq_true] at hrefusal
    obtain ⟨hlive, hchildren, hused, -, hoverflow, -⟩ := hrefusal
    refine ⟨?_, hchildren, hused, hoverflow⟩
    cases hdisposition : record.disposition with
    | live => rfl
    | returned => exact absurd hdisposition hlive

/-- The lender of a live child can take its capacity back. -/
theorem lenderMismatch_eq (h : Sound root m) {identity : LeaseIdentity}
    {record : DelegationRecord}
    (hrecord : recordOf m.state.delegations identity = some record)
    (hlive : record.disposition = .live) {s : LeaseState}
    (hs : rootBooks s = rootBooks m.state) (hdelegations : s.delegations = m.state.delegations) :
    s.lenderMismatch record = some false := by
  obtain ⟨hmem, rfl⟩ := mem_of_lookup hrecord
  have hcapacity : record.capacityBytes ≤ nested m.state.delegations record.parentIdentity :=
    le_totalWhere (g := DelegationRecord.capacityBytes)
      (p := fun other : DelegationRecord =>
        other.disposition = .live ∧ other.parentIdentity = record.parentIdentity) hmem ⟨hlive, rfl⟩
  have hcount : 1 ≤ nestedCount m.state.delegations record.parentIdentity :=
    le_totalWhere (g := fun _ => 1)
      (p := fun other : DelegationRecord =>
        other.disposition = .live ∧ other.parentIdentity = record.parentIdentity) hmem ⟨hlive, rfl⟩
  have hbalanced := h.balanced record.parentIdentity
  have hnested := h.accounts_nested hmem
  have hused := hbalanced.used_eq
  have hdelegated := hbalanced.delegated_eq
  have hlt := hbalanced.delegated_lt
  have hchildren := hbalanced.children_eq
  unfold LeaseState.lenderMismatch
  cases hparent : record.parentIdentity with
  | none =>
    rw [hparent] at hcapacity hused hdelegated hlt
    simp only [accounts] at hused hdelegated hlt
    simp only [rootBooks, Prod.mk.injEq] at hs
    have hfits : ¬m.state.usedBytes < record.capacityBytes := by omega
    have hadd : checkedAdd 128 m.state.returnedDelegatedBytes record.capacityBytes =
        some (m.state.returnedDelegatedBytes + record.capacityBytes) :=
      checkedAdd_eq_some.2 ⟨rfl, by omega⟩
    simp [hs, hfits, hadd]
  | some parent =>
    obtain ⟨lender, hlender, -⟩ := exists_record ((h.placed record hmem).parent parent hparent)
    rw [hparent] at hcapacity hcount hused hdelegated hlt hchildren
    rw [accounts_some hlender] at hused hdelegated hlt hchildren
    simp only [DelegationRecord.envelope] at hused hdelegated hlt hchildren
    have hfits : ¬lender.usedBytes < record.capacityBytes := by omega
    have hsome : lender.liveChildren ≠ 0 := by omega
    have hadd : checkedAdd 128 lender.returnedDelegatedBytes record.capacityBytes =
        some (lender.returnedDelegatedBytes + record.capacityBytes) :=
      checkedAdd_eq_some.2 ⟨rfl, by omega⟩
    have hlookup : s.record? parent = some lender := by
      rw [LeaseState.record?, hdelegations]
      exact hlender
    simp [hlookup, hfits, hsome, hadd]

/-- The counts of the publications of a child without staged bytes. -/
theorem countForChild_eqs (h : Sound root m) {identity : LeaseIdentity} {record : DelegationRecord}
    (hrecord : recordOf m.state.delegations identity = some record) (hused : record.usedBytes = 0)
    {s : LeaseState} (hperm : s.publications.Perm m.state.publications) :
    s.countForChild identity .published + s.countForChild identity .rolledBack =
        (s.publications.countP fun publication => publication.childIdentity = identity) ∧
      (s.publications.countP fun publication => publication.childIdentity = identity) < 2 ^ 64 ∧
      (record.allocationPublishedBytes = 0 ↔ s.countForChild identity .published = 0) := by
  obtain ⟨hmem, rfl⟩ := mem_of_lookup hrecord
  obtain ⟨-, -, hresolved⟩ := h.empty hrecord hused
  refine ⟨?_, ?_, ?_⟩
  · apply countP_resolved
    intro publication hpublication hchild
    exact hresolved publication (hperm.subset hpublication) (of_decide_eq_true hchild)
  · have hlt := h.length_lt
    rw [← hperm.length_eq] at hlt
    exact List.countP_le_length.trans_lt hlt
  · have hpos : ∀ publication ∈ m.state.publications, 0 < publication.bytes :=
      fun publication hpublication => (h.registered publication hpublication).bytes_pos
    rw [h.publishedBytes record hmem, transferred_eq_zero_iff hpos, LeaseState.countForChild,
      hperm.countP_eq, List.countP_eq_zero]
    simp

/-- The root of a receipt does not depend on the root it carries. -/
theorem recomputeRoot_closed (receipt : DelegatedLeaseCloseReceipt) (receiptRoot : Digest) :
    ({ receipt with receiptRoot } : DelegatedLeaseCloseReceipt).recomputeRoot =
      receipt.recomputeRoot := by
  unfold DelegatedLeaseCloseReceipt.recomputeRoot
  rfl

theorem closeReceipt_verifyFor (h : Sound root m) {identity : LeaseIdentity}
    {record : DelegationRecord}
    (hrecord : recordOf m.state.delegations identity = some record) (hused : record.usedBytes = 0)
    {s : LeaseState} (hperm : s.publications.Perm m.state.publications) {sequence : ℕ}
    (hsequence : record.createdSequence < sequence) (rootId : String) (implicitReturn : Bool) :
    (s.closeReceipt root rootId record sequence implicitReturn).verifyFor root
      record.parentIdentity identity = .ok () := by
  obtain ⟨hcounts, hlt, hzero⟩ := countForChild_eqs h hrecord hused hperm
  obtain ⟨hsum, hdelegated, -⟩ := h.empty hrecord hused
  obtain ⟨-, -, hgranted, -, hpeak⟩ := h.record_eqs hrecord
  have hbroken := h.not_broken hrecord
  obtain ⟨hmem, rfl⟩ := mem_of_lookup hrecord
  have hplaced := h.placed record hmem
  have hadd : checkedAdd 128 record.allocationReturnedBytes record.allocationPublishedBytes =
      some record.allocationGrantedBytes := checkedAdd_eq_some.2 ⟨hsum, hgranted⟩
  have hmismatch := publicationCountMismatch_eq_false hcounts hlt hzero
  have hroot : (s.closeReceipt root rootId record sequence implicitReturn).recomputeRoot =
      (s.closeReceipt root rootId record sequence implicitReturn).receiptRoot := by
    have hsealed : ∃ receipt : DelegatedLeaseCloseReceipt,
        s.closeReceipt root rootId record sequence implicitReturn =
          { receipt with receiptRoot := receipt.recomputeRoot } := ⟨_, rfl⟩
    obtain ⟨receipt, hreceipt⟩ := hsealed
    rw [hreceipt, recomputeRoot_closed]
  unfold DelegatedLeaseCloseReceipt.verifyFor
  rw [hroot]
  apply verify_ok.2
  simp only [LeaseState.closeReceipt, List.forall_mem_cons, hplaced.rootSubject, hplaced.domain,
    hbroken, hused, hadd, hdelegated, hmismatch, ne_eq, not_true_eq_false, decide_false,
    Bool.or_false, true_and]
  refine ⟨decide_eq_false (not_lt.2 hpeak), decide_eq_false (not_le.2 hsequence), ?_⟩
  exact fun _ hnil => nomatch hnil

theorem takeBack_modifyRecord (s : LeaseState) (record : DelegationRecord)
    (identity : LeaseIdentity) (f : DelegationRecord → DelegationRecord) :
    (s.takeBack record).modifyRecord identity f = { s with
      usedBytes := record.parentIdentity.elim (s.usedBytes - record.capacityBytes)
        fun _ => s.usedBytes
      returnedDelegatedBytes :=
        record.parentIdentity.elim (s.returnedDelegatedBytes + record.capacityBytes)
          fun _ => s.returnedDelegatedBytes
      delegations := changeRecord identity f
        (changeLender record.parentIdentity (DelegationRecord.reclaim record.capacityBytes)
          s.delegations) } := by
  unfold LeaseState.takeBack
  cases record.parentIdentity <;> rfl

/-- A return whose checks succeed closes the record. -/
theorem returnDelegation_ok {s advanced sorted : LeaseState} {sequence : ℕ} {rootId : String}
    {identity : LeaseIdentity} {record : DelegationRecord} {implicitReturn : Bool}
    (hnext : s.nextSequence = (sequence, advanced)) (hroot : advanced.rootIdentity = some root)
    (hid : advanced.rootId = some rootId) (hrecord : advanced.record? identity = some record)
    (hrefusal : advanced.closeRefusal record = none)
    (hsorted : { advanced with
      publications := LeaseState.sortPublications advanced.publications } = sorted)
    (hcounts : checkedAdd 64 (sorted.countForChild identity .published)
      (sorted.countForChild identity .rolledBack) =
        some ((LeaseState.sortPublications advanced.publications).countP fun publication =>
          publication.childIdentity = identity))
    (hlender : sorted.lenderMismatch record = some false)
    (hverify : (sorted.closeReceipt root rootId record sequence implicitReturn).verifyFor root
      record.parentIdentity identity = .ok ()) :
    ∃ receipt, s.returnDelegation identity implicitReturn =
      some (.ok receipt, (sorted.takeBack record).modifyRecord identity
        (DelegationRecord.close sequence implicitReturn receipt.receiptRoot)) := by
  unfold LeaseState.returnDelegation
  rw [hnext]
  simp only [hsorted]
  simp only [hroot, hid, hrecord, hrefusal, hcounts, hlender, hverify, Option.bind_eq_bind,
    Option.bind_some, ne_eq, not_true_eq_false, if_false, Bool.false_eq_true, Option.pure_def]
  exact ⟨_, rfl⟩

theorem runs_closeOwner (h : Sound root m) (hs : Sequenced m.state) {owner : DelegatedMemoryLease}
    (howner : owner ∈ m.owners) (implicitReturn : Bool) :
    m.Runs (.closeOwner owner implicitReturn) := by
  obtain ⟨record, hrecord, -⟩ := h.owner_record howner
  obtain ⟨rootId, hid⟩ := Option.isSome_iff_exists.1 h.rootId
  have hroot : (m.state.nextSequence.2).rootIdentity = some root := h.rootIdentity
  have hid' : (m.state.nextSequence.2).rootId = some rootId := hid
  have hrecord' : (m.state.nextSequence.2).record? owner.identity = some record := hrecord
  obtain ⟨hmismatch, hfacts⟩ := closeRefusal_spec h hrecord
  cases hrefusal : (m.state.nextSequence.2).closeRefusal record with
  | some reason =>
    unfold Runs exec LeaseState.returnDelegation
    simp only [hroot, hid', hrecord', hrefusal, Option.bind_eq_bind, Option.bind_some,
      Option.pure_def]
    refine ⟨_, _, rfl, .refused ?_ (Quiet.unchanged ?_ List.erase_subset (List.Subset.refl _)
      (List.Subset.refl _))⟩
    · rw [hrefusal] at hmismatch
      exact decide_eq_false fun hreason => hmismatch (congrArg some hreason)
    · exact (Quiet.nextSequence m.state).trans
        ((Quiet.refusedDrop _ implicitReturn).trans (Quiet.recordSemanticRefusal _ _))
  | none =>
    obtain ⟨hlive, hchildren, hused, hoverflow⟩ := hfacts hrefusal
    have hsequence : record.createdSequence < m.state.nextSequence.1 :=
      (hs.created record (mem_of_lookup hrecord).1).trans_lt
        (RefusalLog.lt_next m.state.log hoverflow)
    have hperm := LeaseState.sortPublications_perm m.state.publications
    have hcounts := countForChild_eqs h hrecord hused
      (s := { m.state.nextSequence.2 with
        publications := LeaseState.sortPublications m.state.nextSequence.2.publications }) hperm
    obtain ⟨receipt, hreturn⟩ := returnDelegation_ok rfl hroot hid' hrecord' hrefusal rfl
      (checkedAdd_eq_some.2 ⟨hcounts.1, hcounts.2.1⟩)
      (lenderMismatch_eq h hrecord hlive rfl rfl)
      (closeReceipt_verifyFor h hrecord hused hperm hsequence rootId implicitReturn)
    rw [takeBack_modifyRecord] at hreturn
    unfold Runs exec
    simp only [hreturn]
    exact ⟨_, _, rfl, .done (.returned hrecord hlive hused hchildren
      m.state.log.sequence_le_next)⟩

/-! ### Sealing -/

/-- Nothing is outstanding in a root without occupied bytes and live children. -/
structure Drained (s : LeaseState) : Prop where
  direct : s.directGrantedBytes = s.directReturnedBytes
  delegated : s.delegatedBytes = s.returnedDelegatedBytes
  pooled : s.childReturnedBytes + s.childPublishedBytes = s.childGrantedBytes
  pooled_lt : s.childGrantedBytes < 2 ^ 128
  records : ∀ record ∈ s.delegations, LeaseState.unbalancedRecord record = false
  publications : ∀ publication ∈ s.publications, publication.disposition ≠ .prepared

theorem Sound.drained (h : Sound root m) (hused : m.state.usedBytes = 0)
    (hlive : m.state.countLiveDelegations = 0) : Drained m.state := by
  have hreturned : ∀ record ∈ m.state.delegations, record.disposition = .returned ∧
      record.usedBytes = 0 ∧ record.liveChildren = 0 := by
    intro record hmem
    have hdisposition : record.disposition = .returned := by
      have hne := List.countP_eq_zero.1 hlive record hmem
      cases hdisposition : record.disposition with
      | live => simp [hdisposition] at hne
      | returned => rfl
    have hbalanced := h.envelope (h.recordOf_of_mem hmem)
    have hempty := hbalanced.closed_empty (decide_eq_true hdisposition)
    exact ⟨hdisposition, hempty.1, hbalanced.children_eq.trans hempty.2⟩
  have hprepared : ∀ publication ∈ m.state.publications, publication.disposition ≠ .prepared := by
    intro publication hmem
    obtain ⟨record, hrecord, hrecordMem, -⟩ :=
      exists_record (h.registered publication hmem).child
    exact (h.empty hrecord (hreturned record hrecordMem).2.1).2.2 publication hmem rfl
  have hcharged : held m.charges (fun owner => owner.isSome) = 0 := by
    refine totalWhere_eq_zero.2 fun charge hcharge hsome => ?_
    obtain ⟨identity, hidentity⟩ := Option.isSome_iff_exists.1 hsome
    obtain ⟨record, hrecord, hrecordMem, -⟩ :=
      exists_record (h.charges charge hcharge identity hidentity)
    have hle := bytes_le_held hcharge (p := (· = some identity)) hidentity
    have hsum := (h.record_eqs hrecord).1
    have hzero := (hreturned record hrecordMem).2.1
    omega
  have hstaged : transferred m.state.publications .prepared (fun _ => True) = 0 :=
    totalWhere_eq_zero.2 fun publication hmem hp => absurd hp.1 (hprepared publication hmem)
  have hroot := h.balanced none
  have hdelegated := hroot.delegated_eq
  have hpooled := h.pooled
  obtain ⟨hrootUsed, hdirect, -⟩ := h.root_eqs
  simp only [accounts] at hdelegated
  refine ⟨by omega, by omega, ?_, hpooled.granted_lt, ?_, hprepared⟩
  · have hgranted := hpooled.granted_eq
    simp only [pool] at hgranted
    omega
  · intro record hmem
    have hrecord := h.recordOf_of_mem hmem
    obtain ⟨hdisposition, hrecordUsed, hchildren⟩ := hreturned record hmem
    obtain ⟨hsum, hbooked, -⟩ := h.empty hrecord hrecordUsed
    have hadd := checkedAdd_eq_some.2 ⟨hsum, (h.record_eqs hrecord).2.2.1⟩
    simp [LeaseState.unbalancedRecord, hdisposition, hrecordUsed, hchildren, hadd, hbooked]

/-- A root seals exactly when nothing is live and no violation is on record. -/
theorem sealRefusal_spec (h : Sound root m) (log : RefusalLog) (sealSequence : Option ℕ) :
    ({ m.state with log, sealed := true, sealSequence } : LeaseState).sealRefusal ≠
        some .conservationMismatch ∧
      (({ m.state with log, sealed := true, sealSequence } : LeaseState).sealRefusal = none ↔
        log.counterOverflowed = false ∧ log.releaseInvariantViolations = 0 ∧
          m.state.usedBytes = 0 ∧ m.state.countLiveDelegations = 0) := by
  have hid : m.state.rootId.isNone = false := by
    simpa using h.rootId
  have hlimit : m.state.limitBytes.isNone = false := by
    simpa using h.limitBytes
  have hmismatch : m.state.usedBytes = 0 → m.state.countLiveDelegations = 0 →
      (m.state.directGrantedBytes ≠ m.state.directReturnedBytes ||
        m.state.delegatedBytes ≠ m.state.returnedDelegatedBytes ||
        checkedAdd 128 m.state.childReturnedBytes m.state.childPublishedBytes ≠
          some m.state.childGrantedBytes ||
        m.state.delegations.any LeaseState.unbalancedRecord ||
        m.state.publications.any fun record => record.disposition = .prepared) = false := by
    intro hused hlive
    obtain ⟨hdirect, hdelegated, hpooled, hlt, hrecords, hpublications⟩ := h.drained hused hlive
    have hadd := checkedAdd_eq_some.2 ⟨hpooled, hlt⟩
    have hany : m.state.delegations.any LeaseState.unbalancedRecord = false := by
      simpa [List.any_eq_false] using hrecords
    have hstaged : (m.state.publications.any fun record => record.disposition = .prepared) =
        false := by
      simpa [List.any_eq_false] using hpublications
    simp [hdirect, hdelegated, hadd, hany, hstaged]
  have hcount : ({ m.state with log, sealed := true, sealSequence } :
      LeaseState).countLiveDelegations = m.state.countLiveDelegations := rfl
  constructor
  · intro hrefusal
    simp only [LeaseState.sealRefusal, guard_some, hcount, reduceCtorEq, and_false, false_or,
      and_true, or_false, not_or, not_not] at hrefusal
    obtain ⟨-, -, -, ⟨hused, hlive⟩, htrue⟩ := hrefusal
    rw [hmismatch hused hlive] at htrue
    cases htrue
  · simp only [LeaseState.sealRefusal, guard_none, h.rootIdentity, hid, hlimit,
      Option.isNone_some, Bool.or_false, Bool.false_eq_true, not_false_eq_true, true_and,
      Bool.not_eq_true, not_or, not_not, and_true]
    constructor
    · intro hnone
      exact ⟨hnone.1, hnone.2.1, hnone.2.2.1.1, hnone.2.2.1.2⟩
    · intro hsome
      exact ⟨hsome.1, hsome.2.1, hsome.2.2, hmismatch hsome.2.2.1 hsome.2.2.2⟩

theorem recomputeRoot_sealed (receipt : SealedLeaseReceipt) (receiptRoot : Digest) :
    ({ receipt with receiptRoot } : SealedLeaseReceipt).recomputeRoot = receipt.recomputeRoot := by
  unfold SealedLeaseReceipt.recomputeRoot
  rfl

/-- The receipt of a drained root verifies. -/
theorem terminal_verifyFor (h : Sound root m) (hdrained : Drained m.state)
    (hused : m.state.usedBytes = 0) {limit sealSequence sequence : ℕ} {s : LeaseState}
    (hlimit : m.state.limitBytes = some limit)
    (hbooks : rootBooks s = rootBooks m.state ∧ s.metadataLimit = m.state.metadataLimit ∧
      s.childGrantedBytes = m.state.childGrantedBytes ∧
      s.childReturnedBytes = m.state.childReturnedBytes ∧
      s.childPublishedBytes = m.state.childPublishedBytes)
    (hdelegations : s.delegations.Perm m.state.delegations)
    (hpublications : s.publications.Perm m.state.publications)
    (hviolations : s.log.releaseInvariantViolations = 0)
    (hoverflow : s.log.counterOverflowed = false) (hsequence : sealSequence ≤ sequence)
    (rootId : String) :
    (s.terminal root rootId limit sealSequence sequence).verifyFor root = .ok () := by
  have hroot : (s.terminal root rootId limit sealSequence sequence).recomputeRoot =
      (s.terminal root rootId limit sealSequence sequence).receiptRoot := by
    have hsealed : ∃ receipt : SealedLeaseReceipt,
        s.terminal root rootId limit sealSequence sequence =
          { receipt with receiptRoot := receipt.recomputeRoot } := ⟨_, rfl⟩
    obtain ⟨receipt, hreceipt⟩ := hsealed
    rw [hreceipt, recomputeRoot_sealed]
  obtain ⟨hdirect, hdelegated, hpooled, hlt, -, hresolved⟩ := hdrained
  have hadd := checkedAdd_eq_some.2 ⟨hpooled, hlt⟩
  have hcounts : LeaseState.countDisposition s.publications .published +
      LeaseState.countDisposition s.publications .rolledBack = s.publications.length := by
    have hprepared : ∀ publication ∈ s.publications, true = true →
        publication.disposition ≠ .prepared :=
      fun publication hmem _ => hresolved publication (hpublications.subset hmem)
    have hsum := countP_resolved (q := fun _ => true) hprepared
    simpa [LeaseState.countDisposition] using hsum
  have hzero : m.state.childPublishedBytes = 0 ↔
      LeaseState.countDisposition s.publications .published = 0 := by
    have hpos : ∀ publication ∈ m.state.publications, 0 < publication.bytes :=
      fun publication hmem => (h.registered publication hmem).bytes_pos
    rw [h.childPublishedBytes, transferred_eq_zero_iff hpos, LeaseState.countDisposition,
      hpublications.countP_eq, List.countP_eq_zero]
    simp
  have hmismatch := publicationCountMismatch_eq_false hcounts
    (hpublications.length_eq.trans_lt h.length_lt) hzero
  have hpeak : m.state.peakBytes ≤ limit := by
    have hle := h.root_eqs.2.2.2.2
    rwa [hlimit] at hle
  have hrecords : s.delegations.length ≤ m.state.metadataLimit :=
    hdelegations.length_eq.trans_le h.delegations_le
  have htransfers : s.publications.length ≤ m.state.metadataLimit :=
    hpublications.length_eq.trans_le h.publications_le
  obtain ⟨hbooks, hmetadata, hgranted, hreturned, hpublished⟩ := hbooks
  simp only [rootBooks, Prod.mk.injEq] at hbooks
  obtain ⟨-, hbooks⟩ := hbooks
  unfold SealedLeaseReceipt.verifyFor
  rw [hroot]
  apply verify_ok.2
  simp only [LeaseState.terminal, List.forall_mem_cons, hbooks, hmetadata, hgranted, hreturned,
    hpublished, hused, hdirect, hdelegated, hadd, hmismatch, hviolations, hoverflow, h.isRoot,
    ne_eq, not_true_eq_false, decide_false, Bool.not_true, Bool.or_false, true_and]
  refine ⟨decide_eq_false (not_lt.2 hpeak), ?_, decide_eq_false (not_lt.2 hsequence), ?_⟩
  · simp [hrecords, htransfers]
  · intro _ hnil
    cases hnil

theorem sealRoot_refused {s advanced frozen : LeaseState} {sequence : ℕ}
    {reason : SealRefusalReason}
    (hterminal : s.terminalReceipt = none) (hnext : s.nextSequence = (sequence, advanced))
    (hfrozen : { advanced with
      sealed := true
      sealSequence := some (advanced.sealSequence.getD sequence) } = frozen)
    (hrefusal : frozen.sealRefusal = some reason) :
    ∃ refusal event, refusal.reason = reason ∧
      s.sealRoot = some (.error refusal, frozen.recordSemanticRefusal event) := by
  unfold LeaseState.sealRoot
  rw [hterminal, hnext]
  simp only [hfrozen, hrefusal]
  exact ⟨_, _, rfl, rfl⟩

/-- A seal whose checks succeed issues the terminal receipt. -/
theorem sealRoot_ok {s advanced frozen sorted : LeaseState} {sequence limit : ℕ} {rootId : String}
    (hterminal : s.terminalReceipt = none) (hnext : s.nextSequence = (sequence, advanced))
    (hfrozen : { advanced with
      sealed := true
      sealSequence := some (advanced.sealSequence.getD sequence) } = frozen)
    (hrefusal : frozen.sealRefusal = none)
    (hsorted : { advanced with
      sealed := true
      sealSequence := some (advanced.sealSequence.getD sequence)
      delegations := LeaseState.sortDelegations advanced.delegations
      publications := LeaseState.sortPublications advanced.publications } = sorted)
    (hroot : advanced.rootIdentity = some root) (hid : advanced.rootId = some rootId)
    (hlimit : advanced.limitBytes = some limit)
    (hverify : (sorted.terminal root rootId limit (advanced.sealSequence.getD sequence)
      sequence).verifyFor root = .ok ()) :
    ∃ receipt, s.sealRoot =
      some (.ok receipt, { sorted with terminalReceipt := some receipt }) := by
  unfold LeaseState.sealRoot
  rw [hterminal, hnext]
  simp only [hfrozen, hrefusal, hsorted]
  simp only [hroot, hid, hlimit, hverify]
  refine ⟨sorted.terminal root rootId limit (advanced.sealSequence.getD sequence) sequence, ?_⟩
  generalize sorted.terminal root rootId limit (advanced.sealSequence.getD sequence) sequence =
    receipt
  subst hsorted
  simp only [hroot, hid, hlimit]

/-- A refused seal freezes the root and leaves the books alone. -/
theorem unchanged_frozen (m : Machine) (event : RefusalEvent) :
    m.Unchanged { m with state := LeaseState.recordSemanticRefusal { m.state with
      log := m.state.log.nextSequence.2
      sealed := true
      sealSequence := some (m.state.sealSequence.getD m.state.nextSequence.1) } event } where
  books := rfl
  held := fun _ => rfl
  owners := List.Subset.refl _
  charges := List.Subset.refl _
  prepared := List.Subset.refl _
  published := List.Subset.refl _
  sequence := m.state.log.sequence_le_next.trans
    (RefusalLog.sequence_recordSemanticRefusal _ _ event).ge
  sealed := fun _ => rfl
  sealing := by
    intro sequence hsequence
    cases hsealing : m.state.sealSequence with
    | some first =>
      left
      simpa [LeaseState.recordSemanticRefusal, hsealing] using hsequence
    | none =>
      right
      have heq : m.state.nextSequence.1 = sequence := by
        simpa [LeaseState.recordSemanticRefusal, hsealing] using hsequence
      rw [← heq]
      exact m.state.log.next_le_sequence.trans
        (RefusalLog.sequence_recordSemanticRefusal _ _ event).ge
  terminal := rfl

/-- A seal that nothing refuses issues a receipt. -/
theorem sealRoot_done (h : Sound root m) (hs : Sequenced m.state)
    (hterminal : m.state.terminalReceipt = none)
    (hrefusal : ({ m.state with
      log := m.state.log.nextSequence.2
      sealed := true
      sealSequence := some (m.state.sealSequence.getD m.state.nextSequence.1) } :
        LeaseState).sealRefusal = none) :
    ∃ receipt, m.state.sealRoot = some (.ok receipt, { m.state with
      log := m.state.log.nextSequence.2
      sealed := true
      sealSequence := some (m.state.sealSequence.getD m.state.nextSequence.1)
      delegations := LeaseState.sortDelegations m.state.delegations
      publications := LeaseState.sortPublications m.state.publications
      terminalReceipt := some receipt }) ∧
      m.state.sealSequence.getD m.state.nextSequence.1 ≤ m.state.nextSequence.1 := by
  obtain ⟨rootId, hid⟩ := Option.isSome_iff_exists.1 h.rootId
  obtain ⟨limit, hlimit⟩ := Option.isSome_iff_exists.1 h.limitBytes
  obtain ⟨-, hnone⟩ := sealRefusal_spec h m.state.log.nextSequence.2
    (some (m.state.sealSequence.getD m.state.nextSequence.1))
  obtain ⟨hoverflow, hviolations, hused, hlive⟩ := hnone.1 hrefusal
  have hsequence : m.state.sealSequence.getD m.state.nextSequence.1 ≤
      m.state.nextSequence.1 := by
    cases hsealing : m.state.sealSequence with
    | none => exact le_rfl
    | some sequence =>
      have hle := hs.sealing sequence hsealing
      exact hle.trans (RefusalLog.lt_next m.state.log hoverflow).le
  have hverify := terminal_verifyFor h (h.drained hused hlive) hused hlimit
    (s := { m.state with
      log := m.state.log.nextSequence.2
      sealed := true
      sealSequence := some (m.state.sealSequence.getD m.state.nextSequence.1)
      delegations := LeaseState.sortDelegations m.state.delegations
      publications := LeaseState.sortPublications m.state.publications })
    ⟨rfl, rfl, rfl, rfl, rfl⟩ (LeaseState.sortDelegations_perm _)
    (LeaseState.sortPublications_perm _) hviolations hoverflow hsequence rootId
  obtain ⟨receipt, hseal⟩ := sealRoot_ok hterminal rfl rfl hrefusal rfl h.rootIdentity hid
    hlimit hverify
  exact ⟨receipt, hseal, hsequence⟩

theorem runs_sealRoot (h : Sound root m) (hs : Sequenced m.state) : m.Runs .sealRoot := by
  unfold Runs exec
  cases hterminal : m.state.terminalReceipt with
  | some receipt =>
    unfold LeaseState.sealRoot
    rw [hterminal]
    exact ⟨_, _, rfl, .done (.terminal hterminal)⟩
  | none =>
    cases hrefusal : ({ m.state with
      log := m.state.log.nextSequence.2
      sealed := true
      sealSequence := some (m.state.sealSequence.getD m.state.nextSequence.1) } :
        LeaseState).sealRefusal with
    | some reason =>
      obtain ⟨refusal, event, hreason, hseal⟩ := sealRoot_refused hterminal rfl rfl hrefusal
      have hmismatch := (sealRefusal_spec h m.state.log.nextSequence.2
        (some (m.state.sealSequence.getD m.state.nextSequence.1))).1
      simp only [hseal]
      refine ⟨_, _, rfl, .refused ?_ ?_⟩
      · rw [hrefusal] at hmismatch
        exact decide_eq_false fun heq => hmismatch (congrArg some (hreason.symm.trans heq))
      · exact unchanged_frozen m event
    | none =>
      obtain ⟨receipt, hseal, hsequence⟩ := sealRoot_done h hs hterminal hrefusal
      simp only [hseal]
      exact ⟨_, _, rfl, .done (.closed hterminal
        (hsequence.trans m.state.log.next_le_sequence) m.state.log.sequence_le_next)⟩

/-- Every action of a caller that holds its handles runs, and refuses without a
trace in the books or has its effect. -/
theorem runs (h : Sound root m) (hs : Sequenced m.state) {a : Action} (ha : m.Holds a) :
    m.Runs a := by
  cases a with
  | enableDelegation rootIdentity rootId metadataLimit allocates =>
    exact runs_enableDelegation h rootIdentity rootId metadataLimit allocates
  | reserve what bytes => exact runs_reserve h what bytes
  | delegateCapacity owner identity logicalPath capacityBytes =>
    exact runs_delegateCapacity h ha identity logicalPath capacityBytes
  | reserveIn owner site bytes => exact runs_reserveIn h ha site bytes
  | dropCharge charge => exact runs_dropCharge h ha
  | prepare charge binding envelope => exact runs_prepare h ha.1 ha.2 binding envelope
  | publish transfer => exact runs_publish h hs ha
  | rollback transfer implicitRollback => exact runs_rollback h hs ha implicitRollback
  | closePublished published implicitClose => exact runs_closePublished h hs ha implicitClose
  | closeOwner owner implicitReturn => exact runs_closeOwner h hs ha implicitReturn
  | sealRoot => exact runs_sealRoot h hs

end Machine

end FrankenSim.Lease
