import FrankenSim.Lease.Machine
import FrankenSim.Library.Envelope

/-!
# The accounts of the lease machine

The root and every child record are read as envelopes, whose charged, staged and
nested bytes are summed over the handles, the publications and the records. A
sound machine has balanced envelopes, records that hang off the root, and handles
that name records. Soundness does not depend on the log or on refusal counters.
-/
namespace FrankenSim.Lease

open Library

/-- A record without its refusal counters. -/
def DelegationRecord.account (record : DelegationRecord) : DelegationRecord :=
  { record with refusedRequests := 0, refusedBytes := 0 }

/-! ### Updates of one record -/

def DelegationRecord.grant (bytes : ℕ) (record : DelegationRecord) : DelegationRecord :=
  { record with
    usedBytes := record.usedBytes + bytes
    peakUsedBytes := max record.peakUsedBytes (record.usedBytes + bytes)
    allocationGrantedBytes := record.allocationGrantedBytes + bytes }

def DelegationRecord.release (bytes : ℕ) (record : DelegationRecord) : DelegationRecord :=
  { record with
    usedBytes := record.usedBytes - bytes
    allocationReturnedBytes := record.allocationReturnedBytes + bytes }

def DelegationRecord.publish (bytes : ℕ) (record : DelegationRecord) : DelegationRecord :=
  { record with
    usedBytes := record.usedBytes - bytes
    allocationPublishedBytes := record.allocationPublishedBytes + bytes }

def DelegationRecord.close (sequence : ℕ) (implicitReturn : Bool) (closeRoot : Digest)
    (record : DelegationRecord) : DelegationRecord :=
  { record with
    disposition := .returned
    returnedSequence := some sequence
    implicitReturn
    closeRoot := some closeRoot }

def DelegationRecord.lend (bytes : ℕ) (record : DelegationRecord) : DelegationRecord :=
  { record with
    usedBytes := record.usedBytes + bytes
    peakUsedBytes := max record.peakUsedBytes (record.usedBytes + bytes)
    delegatedBytes := record.delegatedBytes + bytes
    liveChildren := record.liveChildren + 1 }

def DelegationRecord.reclaim (bytes : ℕ) (record : DelegationRecord) : DelegationRecord :=
  { record with
    usedBytes := record.usedBytes - bytes
    liveChildren := record.liveChildren - 1
    returnedDelegatedBytes := record.returnedDelegatedBytes + bytes }

/-- The record of a new envelope. -/
def DelegationRecord.fresh (parentIdentity : Option LeaseIdentity) (identity : LeaseIdentity)
    (parentPath : Option String) (logicalPath : String) (capacityBytes createdSequence : ℕ) :
    DelegationRecord :=
  { parentIdentity, identity, parentPath, logicalPath, capacityBytes, createdSequence }

def PublicationRecord.publish (sequence : ℕ) (receiptRoot : Digest) (record : PublicationRecord) :
    PublicationRecord :=
  { record with
    disposition := .published
    resolvedSequence := some sequence
    publishedReceiptRoot := some receiptRoot }

def PublicationRecord.rollBack (sequence : ℕ) (implicitRollback : Bool)
    (record : PublicationRecord) : PublicationRecord :=
  { record with disposition := .rolledBack, resolvedSequence := some sequence, implicitRollback }

def PublicationRecord.closeDestination (sequence : ℕ) (implicitClose : Bool) (closeRoot : Digest)
    (record : PublicationRecord) : PublicationRecord :=
  { record with
    destinationClosedSequence := some sequence
    implicitDestinationClose := implicitClose
    destinationCloseRoot := some closeRoot }

namespace LeaseState

/-- The state without its log, its refusal counters and its seal. -/
def books (s : LeaseState) : LeaseState :=
  { s with
    log := RefusalLog.new
    delegations := s.delegations.map DelegationRecord.account
    sealed := false
    sealSequence := none
    terminalReceipt := none }

theorem sortPublications_perm (records : List PublicationRecord) :
    (sortPublications records).Perm records :=
  List.perm_insertionSort _ records

theorem sortDelegations_perm (records : List DelegationRecord) :
    (sortDelegations records).Perm records :=
  List.perm_insertionSort _ records

end LeaseState

/-! ### Records and their changes -/

def identities (records : List DelegationRecord) : List LeaseIdentity :=
  records.map DelegationRecord.identity

/-- The record of an identity. -/
def recordOf (records : List DelegationRecord) (identity : LeaseIdentity) :
    Option DelegationRecord :=
  lookup DelegationRecord.identity identity records

def changeRecord (identity : LeaseIdentity) (f : DelegationRecord → DelegationRecord)
    (records : List DelegationRecord) : List DelegationRecord :=
  modifyKey DelegationRecord.identity identity f records

def publicationOf (records : List PublicationRecord) (transfer : PreparedTransfer) :
    Option PublicationRecord :=
  lookup PublicationRecord.transfer transfer records

def changePublication (transfer : PreparedTransfer) (f : PublicationRecord → PublicationRecord)
    (records : List PublicationRecord) : List PublicationRecord :=
  modifyKey PublicationRecord.transfer transfer f records

/-- The records after the change of a lender, if it is a child. -/
def changeLender (lender : Option LeaseIdentity) (f : DelegationRecord → DelegationRecord)
    (records : List DelegationRecord) : List DelegationRecord :=
  lender.elim records fun identity => changeRecord identity f records

variable {records : List DelegationRecord} {identity : LeaseIdentity}
  (f : DelegationRecord → DelegationRecord)

theorem recordOf_account : recordOf (records.map DelegationRecord.account) identity =
    (recordOf records identity).map DelegationRecord.account := by
  unfold recordOf lookup
  simp only [List.find?_map]
  rfl

theorem identities_account :
    identities (records.map DelegationRecord.account) = identities records := by
  simp only [identities, List.map_map]
  rfl

theorem nested_account (lender : Option LeaseIdentity) :
    nested (records.map DelegationRecord.account) lender = nested records lender := by
  simp only [nested, totalWhere, List.map_map]
  rfl

theorem nestedCount_account (lender : Option LeaseIdentity) :
    nestedCount (records.map DelegationRecord.account) lender = nestedCount records lender := by
  simp only [nestedCount, totalWhere, List.map_map]
  rfl

theorem recordOf_changeRecord (hf : ∀ record, (f record).identity = record.identity)
    (j : LeaseIdentity) :
    recordOf (changeRecord identity f records) j =
      if j = identity then (recordOf records identity).map f else recordOf records j :=
  lookup_modifyKey hf j

theorem identities_changeRecord (hf : ∀ record, (f record).identity = record.identity) :
    identities (changeRecord identity f records) = identities records :=
  map_modifyKey fun record _ _ => hf record

theorem mem_identities {record : DelegationRecord}
    (hrecord : recordOf records identity = some record) : identity ∈ identities records := by
  obtain ⟨hmem, rfl⟩ := mem_of_lookup hrecord
  exact List.mem_map_of_mem hmem

theorem mem_identities_changeRecord (hf : ∀ record, (f record).identity = record.identity)
    {j : LeaseIdentity} (h : j ∈ identities records) :
    j ∈ identities (changeRecord identity f records) := by
  rwa [identities_changeRecord f hf]

/-- What a lender sees of a record. -/
def DelegationRecord.place (record : DelegationRecord) :
    DelegationDisposition × Option LeaseIdentity × ℕ :=
  (record.disposition, record.parentIdentity, record.capacityBytes)

/-- A change of a record that keeps its place keeps what its lender has lent. -/
theorem nested_changeRecord
    (hf : ∀ record, (f record).place = record.place) (lender : Option LeaseIdentity) :
    nested (changeRecord identity f records) lender = nested records lender ∧
      nestedCount (changeRecord identity f records) lender = nestedCount records lender := by
  have hmap : (changeRecord identity f records).map DelegationRecord.place =
      records.map DelegationRecord.place :=
    map_modifyKey fun record _ _ => hf record
  constructor
  · exact totalWhere_congr DelegationRecord.place
      (fun place => place.1 = .live ∧ place.2.1 = lender) (fun place => place.2.2)
      (fun _ => Iff.rfl) (fun _ => rfl) hmap
  · exact totalWhere_congr DelegationRecord.place
      (fun place => place.1 = .live ∧ place.2.1 = lender) (fun _ => 1)
      (fun _ => Iff.rfl) (fun _ => rfl) hmap

variable (records) in
theorem recordOf_changeLender (hf : ∀ record, (f record).identity = record.identity)
    (lender : Option LeaseIdentity) (j : LeaseIdentity) :
    recordOf (changeLender lender f records) j =
      if some j = lender then (recordOf records j).map f else recordOf records j := by
  cases lender with
  | none => simp [changeLender]
  | some identity =>
    rw [changeLender, Option.elim_some, recordOf_changeRecord f hf]
    by_cases hj : j = identity
    · subst hj
      simp
    · simp [hj]

variable (records) in
theorem identities_changeLender (hf : ∀ record, (f record).identity = record.identity)
    (lender : Option LeaseIdentity) :
    identities (changeLender lender f records) = identities records := by
  cases lender with
  | none => rfl
  | some identity => exact identities_changeRecord f hf

variable (records) in
theorem nested_changeLender (hf : ∀ record, (f record).place = record.place)
    (lender owner : Option LeaseIdentity) :
    nested (changeLender lender f records) owner = nested records owner ∧
      nestedCount (changeLender lender f records) owner = nestedCount records owner := by
  cases lender with
  | none => exact ⟨rfl, rfl⟩
  | some identity => exact nested_changeRecord f hf owner

theorem recordOf_append_self {new : DelegationRecord}
    (hfresh : new.identity ∉ identities records) :
    recordOf (records ++ [new]) new.identity = some new := by
  have hnone : lookup DelegationRecord.identity new.identity records = none :=
    lookup_eq_none.2 hfresh
  rw [recordOf, lookup_append, hnone]
  simp [lookup]

theorem recordOf_append_of_ne {new : DelegationRecord} {j : LeaseIdentity}
    (hj : j ≠ new.identity) : recordOf (records ++ [new]) j = recordOf records j := by
  simp [recordOf, lookup, Ne.symm hj]

@[simp] theorem identities_append (new : DelegationRecord) :
    identities (records ++ [new]) = identities records ++ [new.identity] := by
  simp [identities]

@[simp] theorem nested_append (new : DelegationRecord) (lender : Option LeaseIdentity) :
    nested (records ++ [new]) lender = nested records lender +
      if new.disposition = .live ∧ new.parentIdentity = lender then new.capacityBytes else 0 := by
  simp [nested]

@[simp] theorem nestedCount_append (new : DelegationRecord) (lender : Option LeaseIdentity) :
    nestedCount (records ++ [new]) lender = nestedCount records lender +
      if new.disposition = .live ∧ new.parentIdentity = lender then 1 else 0 := by
  simp [nestedCount]

theorem exists_record (hid : identity ∈ identities records) :
    ∃ record, recordOf records identity = some record ∧ record ∈ records ∧
      record.identity = identity := by
  obtain ⟨record, hrecord⟩ := exists_lookup hid
  exact ⟨record, hrecord, mem_of_lookup hrecord⟩

/-! ### Accounts -/

/-- A record as an envelope, given what its bytes are held as. -/
def DelegationRecord.envelope (record : DelegationRecord)
    (charged staged nested nestedCount : ℕ) : Envelope where
  limit := record.capacityBytes
  used := record.usedBytes
  peak := record.peakUsedBytes
  flow := ⟨record.allocationGrantedBytes, record.allocationReturnedBytes,
    record.allocationPublishedBytes, charged, staged⟩
  delegated := record.delegatedBytes
  reclaimed := record.returnedDelegatedBytes
  children := record.liveChildren
  nested := nested
  nestedCount := nestedCount
  closed := record.disposition = .returned

namespace Machine

/-- The envelopes of the root and of the children. -/
def accounts (m : Machine) : Ledger (Option LeaseIdentity)
  | none => {
      limit := m.state.limitBytes.getD 0
      used := m.state.usedBytes
      peak := m.state.peakBytes
      flow := ⟨m.state.directGrantedBytes, m.state.directReturnedBytes, 0, held m.charges (· = none), 0⟩
      delegated := m.state.delegatedBytes
      reclaimed := m.state.returnedDelegatedBytes
      children := nestedCount m.state.delegations none
      nested := nested m.state.delegations none
      nestedCount := nestedCount m.state.delegations none
      closed := false }
  | some identity =>
    match recordOf m.state.delegations identity with
    | none => Envelope.fresh 0
    | some record =>
      record.envelope (held m.charges (· = some identity)) (transferred m.state.publications .prepared (· = identity))
        (nested m.state.delegations (some identity)) (nestedCount m.state.delegations (some identity))

/-- The totals of all children. -/
def pool (m : Machine) : Flow :=
  ⟨m.state.childGrantedBytes, m.state.childReturnedBytes, m.state.childPublishedBytes,
    held m.charges (·.isSome), transferred m.state.publications .prepared fun _ => True⟩

theorem accounts_some {m : Machine} {identity : LeaseIdentity} {record : DelegationRecord}
    (h : recordOf m.state.delegations identity = some record) :
    m.accounts (some identity) = record.envelope (held m.charges (· = some identity))
      (transferred m.state.publications .prepared (· = identity))
      (nested m.state.delegations (some identity))
      (nestedCount m.state.delegations (some identity)) := by
  simp [accounts, h]

/-! ### Soundness -/

/-- A record hangs off the root or off another record. -/
structure Placed (root : LeaseIdentity) (ids : List LeaseIdentity) (record : DelegationRecord) :
    Prop where
  child : record.identity.isDirectChildOf (record.parentIdentity.getD root) = true
  rootSubject : record.identity.rootSubject = root.rootSubject
  domain : record.identity.domain = root.domain
  parent : ∀ parent ∈ record.parentIdentity, parent ∈ ids

structure Registered (ids : List LeaseIdentity) (record : PublicationRecord) : Prop where
  bytes_pos : 0 < record.bytes
  envelope : record.envelope.totalBytes = some record.bytes
  child : record.childIdentity ∈ ids

/-- The records, the publications and the handles fit together. -/
structure Shape (root : LeaseIdentity) (m : Machine) : Prop where
  rootIdentity : m.state.rootIdentity = some root
  isRoot : root.isRoot = true
  rootId : m.state.rootId.isSome = true
  limitBytes : m.state.limitBytes.isSome = true
  metadataLimit : m.state.metadataLimit ≤ MAX_DELEGATION_RECORDS
  nodup : (identities m.state.delegations).Nodup
  delegations_le : m.state.delegations.length ≤ m.state.metadataLimit
  placed : ∀ record ∈ m.state.delegations, Placed root (identities m.state.delegations) record
  bindings : (m.state.publications.map PublicationRecord.binding).Nodup
  publications_le : m.state.publications.length ≤ m.state.metadataLimit
  registered : ∀ record ∈ m.state.publications, Registered (identities m.state.delegations) record
  owners : ∀ lease ∈ m.owners, ∃ record ∈ m.state.delegations,
    record.identity = lease.identity ∧ record.capacityBytes = lease.capacityBytes
  charges : ∀ charge ∈ m.charges, ∀ identity ∈ charge.owner, identity ∈ identities m.state.delegations
  prepared : ∀ transfer ∈ m.prepared, transfer.childIdentity ∈ identities m.state.delegations
  receipts : ∀ receipt ∈ m.published, receipt.verifyFor receipt.subject = .ok ()

/-- The envelopes are balanced, and the published totals are what was published. -/
structure Sound (root : LeaseIdentity) (m : Machine) : Prop extends Shape root m where
  balanced : m.accounts.Balanced (2 ^ 128)
  pooled : m.pool.Conserved (2 ^ 128)
  publishedBytes : ∀ record ∈ m.state.delegations,
    record.allocationPublishedBytes = transferred m.state.publications .published (· = record.identity)
  childPublishedBytes :
    m.state.childPublishedBytes = transferred m.state.publications .published fun _ => True

/-- The recorded sequence numbers are in the past. -/
structure Sequenced (s : LeaseState) : Prop where
  created : ∀ record ∈ s.delegations, record.createdSequence ≤ s.log.sequence
  prepared : ∀ record ∈ s.publications, record.preparedSequence ≤ s.log.sequence
  resolved : ∀ record ∈ s.publications, ∀ sequence ∈ record.resolvedSequence,
    sequence ≤ s.log.sequence
  sealing : ∀ sequence ∈ s.sealSequence, sequence ≤ s.log.sequence

variable {root : LeaseIdentity} {m : Machine}

theorem Shape.recordOf_of_mem (h : Shape root m) {record : DelegationRecord}
    (hmem : record ∈ m.state.delegations) :
    recordOf m.state.delegations record.identity = some record :=
  lookup_of_mem h.nodup hmem

/-! ### Changes that keep the shape -/

/-- A record changes without moving or changing its capacity. -/
theorem Shape.changeRecord (h : Shape root m) (identity : LeaseIdentity)
    (f : DelegationRecord → DelegationRecord)
    (hf : ∀ record, ((f record).identity, (f record).parentIdentity, (f record).capacityBytes) =
      (record.identity, record.parentIdentity, record.capacityBytes)) :
    Shape root { m with state := { m.state with
      delegations := Lease.changeRecord identity f m.state.delegations } } := by
  have hfields : ∀ record, (f record).identity = record.identity ∧
      (f record).parentIdentity = record.parentIdentity ∧
      (f record).capacityBytes = record.capacityBytes := by
    intro record
    simpa using hf record
  have hids : identities (Lease.changeRecord identity f m.state.delegations) =
      identities m.state.delegations := identities_changeRecord f fun record => (hfields record).1
  refine { h with
    nodup := ?_
    delegations_le := ?_
    placed := ?_
    registered := ?_
    owners := ?_
    charges := ?_
    prepared := ?_ }
  · exact hids ▸ h.nodup
  · rw [Lease.changeRecord, length_modifyKey]
    exact h.delegations_le
  · intro record hrecord
    obtain ⟨old, hold, rfl⟩ := mem_modifyKey.1 hrecord
    obtain ⟨hchild, hsubject, hdomain, hparent⟩ := h.placed old hold
    have hnew : ∀ new : DelegationRecord, new.identity = old.identity →
        new.parentIdentity = old.parentIdentity →
        Placed root (identities (Lease.changeRecord identity f m.state.delegations)) new := by
      intro new hi hp
      refine ⟨?_, ?_, ?_, ?_⟩
      · rwa [hi, hp]
      · rwa [hi]
      · rwa [hi]
      · rwa [hp, hids]
    by_cases hk : old.identity = identity
    · rw [if_pos hk]
      exact hnew _ (hfields old).1 (hfields old).2.1
    · rw [if_neg hk]
      exact hnew _ rfl rfl
  · intro record hrecord
    obtain ⟨hpos, henvelope, hchild⟩ := h.registered record hrecord
    exact ⟨hpos, henvelope, by rwa [hids]⟩
  · intro lease hlease
    obtain ⟨record, hrecord, hi, hcapacity⟩ := h.owners lease hlease
    refine ⟨_, mem_modifyKey.2 ⟨record, hrecord, rfl⟩, ?_⟩
    by_cases hk : record.identity = identity
    · rw [if_pos hk, (hfields record).1, (hfields record).2.2]
      exact ⟨hi, hcapacity⟩
    · rw [if_neg hk]
      exact ⟨hi, hcapacity⟩
  · rw [hids]
    exact h.charges
  · rw [hids]
    exact h.prepared

theorem Shape.changePublication (h : Shape root m) (transfer : PreparedTransfer)
    (f : PublicationRecord → PublicationRecord)
    (hf : ∀ record, (f record).transfer = record.transfer) :
    Shape root { m with state := { m.state with
      publications := Lease.changePublication transfer f m.state.publications } } := by
  refine { h with bindings := ?_, publications_le := ?_, registered := ?_ }
  · have hmap : (Lease.changePublication transfer f m.state.publications).map
        PublicationRecord.binding = m.state.publications.map PublicationRecord.binding :=
      map_modifyKey fun record _ _ => congrArg PreparedTransfer.binding (hf record)
    rw [hmap]
    exact h.bindings
  · rw [Lease.changePublication, length_modifyKey]
    exact h.publications_le
  · intro record hrecord
    obtain ⟨old, hold, rfl⟩ := mem_modifyKey.1 hrecord
    obtain ⟨hpos, henvelope, hchild⟩ := h.registered old hold
    by_cases hk : old.transfer = transfer
    · rw [if_pos hk]
      have hbytes : (f old).bytes = old.bytes := congrArg PreparedTransfer.bytes (hf old)
      have hsame : (f old).envelope = old.envelope := congrArg PreparedTransfer.envelope (hf old)
      have hid : (f old).childIdentity = old.childIdentity :=
        congrArg PreparedTransfer.childIdentity (hf old)
      exact ⟨by rwa [hbytes], by rwa [hsame, hbytes], by rwa [hid]⟩
    · rw [if_neg hk]
      exact ⟨hpos, henvelope, hchild⟩

theorem Shape.changeLender (h : Shape root m) (lender : Option LeaseIdentity)
    (f : DelegationRecord → DelegationRecord)
    (hf : ∀ record, ((f record).identity, (f record).parentIdentity, (f record).capacityBytes) =
      (record.identity, record.parentIdentity, record.capacityBytes)) :
    Shape root { m with state := { m.state with
      delegations := Lease.changeLender lender f m.state.delegations } } := by
  cases lender with
  | none => exact h
  | some identity => exact h.changeRecord identity f hf

end Machine

end FrankenSim.Lease
