import FrankenSim.Lease.Receipts
import FrankenSim.Library.Keyed

/-!
# The state of a lease root

One lock guards the occupied bytes of the root, its child and publication
records, the cumulative totals, and a log of sequence numbers and refusals. The
operations of the root are functions on this state; an operation that would panic
has no result.
-/
namespace FrankenSim.Lease

open Library

def MAX_DELEGATION_RECORDS : ℕ := 4096

inductive DelegationDisposition
  | live
  | returned
  deriving DecidableEq, Repr

inductive PublicationDisposition
  | prepared
  | published
  | rolledBack
  deriving DecidableEq, Repr

structure PublicationRecord where
  parentIdentity : Option LeaseIdentity
  childIdentity : LeaseIdentity
  binding : PublishedTransferBinding
  envelope : PublishedTransferEnvelope
  bytes : ℕ
  preparedSequence : ℕ
  resolvedSequence : Option ℕ := none
  disposition : PublicationDisposition := .prepared
  implicitRollback : Bool := false
  publishedReceiptRoot : Option Digest := none
  destinationClosedSequence : Option ℕ := none
  implicitDestinationClose : Bool := false
  destinationCloseRoot : Option Digest := none
  deriving DecidableEq, Repr

structure DelegationRecord where
  parentIdentity : Option LeaseIdentity
  identity : LeaseIdentity
  parentPath : Option String
  logicalPath : String
  capacityBytes : ℕ
  usedBytes : ℕ := 0
  peakUsedBytes : ℕ := 0
  allocationGrantedBytes : ℕ := 0
  allocationReturnedBytes : ℕ := 0
  allocationPublishedBytes : ℕ := 0
  delegatedBytes : ℕ := 0
  returnedDelegatedBytes : ℕ := 0
  refusedRequests : ℕ := 0
  refusedBytes : ℕ := 0
  liveChildren : ℕ := 0
  createdSequence : ℕ
  returnedSequence : Option ℕ := none
  implicitReturn : Bool := false
  closeRoot : Option Digest := none
  disposition : DelegationDisposition := .live
  deriving DecidableEq, Repr

/-- The sequence counter and what is recorded about refusals and violations. -/
structure RefusalLog where
  sequence : ℕ
  counterOverflowed : Bool
  refusals : ℕ
  firstRefusal : Option LeaseRefusal
  releaseInvariantViolations : ℕ
  semanticRefusals : ℕ
  semanticRefusedBytes : ℕ
  refusalRoot : Digest
  postTerminalRefusals : ℕ
  deriving DecidableEq, Repr

structure RefusalEvent where
  reason : String
  identity : Option LeaseIdentity
  site : String
  requestedBytes : Option ℕ
  observedUsedBytes : ℕ
  observedAuxiliary : ℕ
  sequence : ℕ
  deriving DecidableEq, Repr

namespace RefusalLog

def new : RefusalLog where
  sequence := 0
  counterOverflowed := false
  refusals := 0
  firstRefusal := none
  releaseInvariantViolations := 0
  semanticRefusals := 0
  semanticRefusedBytes := 0
  refusalRoot := (ReceiptHasher.new "fs-alloc-refusals-v1").finish
  postTerminalRefusals := 0

def overflow (log : RefusalLog) : RefusalLog := { log with counterOverflowed := true }

/-- The next sequence number, or the last one once the counter is exhausted. -/
def nextSequence (log : RefusalLog) : ℕ × RefusalLog :=
  match checkedAdd 128 log.sequence 1 with
  | some next => (next, { log with sequence := next })
  | none => (wordMax 128, log.overflow)

def incrementInvariantViolation (log : RefusalLog) : RefusalLog :=
  match checkedAdd 128 log.releaseInvariantViolations 1 with
  | some next => { log with releaseInvariantViolations := next }
  | none => log.overflow

def countSemanticRefusal (log : RefusalLog) : RefusalLog :=
  match checkedAdd 128 log.semanticRefusals 1 with
  | some next => { log with semanticRefusals := next }
  | none => log.overflow

def countRefusedBytes (log : RefusalLog) (requestedBytes : ℕ) : RefusalLog :=
  match checkedAdd 128 log.semanticRefusedBytes requestedBytes with
  | some next => { log with semanticRefusedBytes := next }
  | none => log.overflow

def hashRefusal (refusalRoot : Digest) (event : RefusalEvent) : Digest :=
  let hash := ((ReceiptHasher.new "fs-alloc-refusal-event-v1").bytes refusalRoot).text event.reason
  let hash := (hash.optional ReceiptHasher.identity event.identity).text event.site
  let hash := hash.optional ReceiptHasher.u64 event.requestedBytes
  ((hash.u64 event.observedUsedBytes).u64 event.observedAuxiliary).u128 event.sequence |>.finish

/-- Refusals after the terminal receipt are only counted. -/
def recordSemanticRefusal (log : RefusalLog) (terminal : Bool) (event : RefusalEvent) :
    RefusalLog :=
  if terminal then
    match checkedAdd 128 log.postTerminalRefusals 1 with
    | some next => { log with postTerminalRefusals := next }
    | none => log.overflow
  else
    let log := log.countSemanticRefusal
    let log := event.requestedBytes.elim log log.countRefusedBytes
    { log with refusalRoot := hashRefusal log.refusalRoot event }

def countRefusal (log : RefusalLog) (refusal : LeaseRefusal) : RefusalLog :=
  let log :=
    match checkedAdd 128 log.refusals 1 with
    | some next => { log with refusals := next }
    | none => log.overflow
  { log with firstRefusal := log.firstRefusal.or (some refusal) }

end RefusalLog

structure LeaseState where
  limitBytes : Option ℕ
  usedBytes : ℕ
  peakBytes : ℕ
  requestedBytes : ℕ
  sealed : Bool
  sealSequence : Option ℕ
  terminalReceipt : Option SealedLeaseReceipt
  rootIdentity : Option LeaseIdentity
  rootId : Option String
  metadataLimit : ℕ
  delegations : List DelegationRecord
  publications : List PublicationRecord
  directGrantedBytes : ℕ
  directReturnedBytes : ℕ
  delegatedBytes : ℕ
  returnedDelegatedBytes : ℕ
  childGrantedBytes : ℕ
  childReturnedBytes : ℕ
  childPublishedBytes : ℕ
  log : RefusalLog

namespace LeaseState

def new (limitBytes : Option ℕ) : LeaseState where
  limitBytes := limitBytes
  usedBytes := 0
  peakBytes := 0
  requestedBytes := 0
  sealed := false
  sealSequence := none
  terminalReceipt := none
  rootIdentity := none
  rootId := none
  metadataLimit := 0
  delegations := []
  publications := []
  directGrantedBytes := 0
  directReturnedBytes := 0
  delegatedBytes := 0
  returnedDelegatedBytes := 0
  childGrantedBytes := 0
  childReturnedBytes := 0
  childPublishedBytes := 0
  log := RefusalLog.new

/-- A lease that enforces a hard byte limit. -/
def bounded (limitBytes : ℕ) : LeaseState := new (some limitBytes)

def nextSequence (s : LeaseState) : ℕ × LeaseState :=
  (s.log.nextSequence.1, { s with log := s.log.nextSequence.2 })

def overflow (s : LeaseState) : LeaseState := { s with log := s.log.overflow }

def incrementInvariantViolation (s : LeaseState) : LeaseState :=
  { s with log := s.log.incrementInvariantViolation }

def recordSemanticRefusal (s : LeaseState) (event : RefusalEvent) : LeaseState :=
  { s with log := s.log.recordSemanticRefusal s.terminalReceipt.isSome event }

def record? (s : LeaseState) (identity : LeaseIdentity) : Option DelegationRecord :=
  lookup DelegationRecord.identity identity s.delegations

def modifyRecord (s : LeaseState) (identity : LeaseIdentity)
    (f : DelegationRecord → DelegationRecord) : LeaseState :=
  { s with delegations := modifyKey DelegationRecord.identity identity f s.delegations }

/-- A refusal is counted in the record of the child it concerns. -/
def countRecordRefusal (s : LeaseState) (identity : LeaseIdentity) (bytes : ℕ) : LeaseState :=
  match s.record? identity with
  | none => s
  | some record =>
    match checkedAdd 128 record.refusedRequests 1, checkedAdd 128 record.refusedBytes bytes with
    | some refusedRequests, some refusedBytes =>
      s.modifyRecord identity fun record => { record with refusedRequests, refusedBytes }
    | _, _ => s.overflow

def recordRootRefusal (s : LeaseState) (what : String) (bytes used : ℕ)
    (reason : LeaseRefusalReason) (sequence : ℕ) : LeaseRefusal × LeaseState :=
  let limitBytes := s.limitBytes.getD (wordMax 64)
  let refusal : LeaseRefusal := ⟨what, bytes, used, limitBytes, reason, sequence⟩
  let s := { s with log := s.log.countRefusal refusal }
  (refusal, s.recordSemanticRefusal {
    reason := reason.code
    identity := s.rootIdentity
    site := what
    requestedBytes := some bytes
    observedUsedBytes := used
    observedAuxiliary := limitBytes
    sequence })

/-! ### Configuration -/

def configurationRefusal (s : LeaseState) (rootIdentity : LeaseIdentity) (rootId : String)
    (metadataLimit : ℕ) : Option ConfigurationRefusalReason :=
  if s.limitBytes.isNone then some .unboundedRoot
  else if s.sealed then some .sealed
  else if s.rootIdentity.isSome then some .alreadyConfigured
  else if s.usedBytes ≠ 0 ∨ s.requestedBytes ≠ 0 ∨ s.log.refusals ≠ 0 ∨
      s.log.releaseInvariantViolations ≠ 0 then some .notPristine
  else if !rootIdentity.isRoot || !validRootId rootId then some .invalidRootIdentity
  else if metadataLimit = 0 ∨ MAX_DELEGATION_RECORDS < metadataLimit then some .metadataLimit
  else none

/-- The metadata is allocated up front, which may fail. -/
def enableDelegation (s : LeaseState) (rootIdentity : LeaseIdentity) (rootId : String)
    (metadataLimit : ℕ) (allocates : Bool) :
    Except LeaseConfigurationRefusal Unit × LeaseState :=
  let (sequence, s) := s.nextSequence
  let refuse := fun reason : ConfigurationRefusalReason =>
    (Except.error (⟨rootIdentity, rootId, reason, sequence⟩ : LeaseConfigurationRefusal),
      s.recordSemanticRefusal {
        reason := reason.code
        identity := some rootIdentity
        site := rootId
        requestedBytes := none
        observedUsedBytes := 0
        observedAuxiliary := 0
        sequence })
  match s.configurationRefusal rootIdentity rootId metadataLimit with
  | some reason => refuse reason
  | none =>
    if !allocates then refuse .metadataAllocation
    else
      (.ok (), { s with rootIdentity := some rootIdentity, rootId := some rootId, metadataLimit })

/-! ### Root charges -/

def reserveRefusal (s : LeaseState) (bytes : ℕ) : Option LeaseRefusalReason :=
  if s.sealed then some .sealed
  else if s.log.counterOverflowed || (checkedAdd 128 s.requestedBytes bytes).isNone ||
      s.rootId.isSome && (checkedAdd 128 s.directGrantedBytes bytes).isNone then
    some .counterOverflow
  else if (checkedAdd 64 s.usedBytes bytes).all fun next => s.limitBytes.any fun limit =>
      limit < next then some .capacity
  else none

def reserve (s : LeaseState) (what : String) (bytes : ℕ) :
    Except LeaseRefusal Unit × LeaseState :=
  let (sequence, s) := s.nextSequence
  match s.reserveRefusal bytes with
  | some reason =>
    let used := s.usedBytes
    let s := if reason = .counterOverflow then s.overflow else s
    let (refusal, s) := s.recordRootRefusal what bytes used reason sequence
    (.error refusal, s)
  | none =>
    (.ok (), { s with
      usedBytes := s.usedBytes + bytes
      peakBytes := max s.peakBytes (s.usedBytes + bytes)
      requestedBytes := s.requestedBytes + bytes
      directGrantedBytes :=
        if s.rootId.isSome then s.directGrantedBytes + bytes else s.directGrantedBytes })

/-- The release of a root charge; it reports whether it matched the books. -/
def releaseRaw (s : LeaseState) (bytes : ℕ) : Bool × LeaseState :=
  let (_, s) := s.nextSequence
  if s.usedBytes < bytes then (false, s.incrementInvariantViolation)
  else if s.rootId.isSome then
    match checkedAdd 128 s.directReturnedBytes bytes with
    | none => (false, s.overflow.incrementInvariantViolation)
    | some directReturnedBytes =>
      (true, { s with usedBytes := s.usedBytes - bytes, directReturnedBytes })
  else (true, { s with usedBytes := s.usedBytes - bytes })

/-! ### Delegation -/

/-- The occupied bytes and the limit of the account that lends the capacity. -/
def lender (s : LeaseState) (parentIdentity : Option LeaseIdentity) : ℕ × Option ℕ :=
  match parentIdentity with
  | none => (s.usedBytes, s.limitBytes)
  | some identity =>
    match s.record? identity with
    | some record => (record.usedBytes, some record.capacityBytes)
    | none => (0, none)

def delegationRefusal (s : LeaseState) (parentIdentity : Option LeaseIdentity)
    (parentPath : Option String) (identity : LeaseIdentity) (logicalPath : String)
    (capacityBytes : ℕ) : Option DelegationRefusalReason :=
  let parent := parentIdentity.bind s.record?
  let (usedBytes, limitBytes) := s.lender parentIdentity
  if s.limitBytes.isNone then some .unboundedParent
  else match s.rootIdentity, s.rootId with
  | some rootIdentity, some rootId =>
    if s.sealed then some .rootSealed
    else if !identity.isDirectChildOf (parentIdentity.getD rootIdentity) then
      some .invalidIdentityRelationship
    else if !validLogicalPath rootId parentPath logicalPath then some .invalidLogicalPath
    else if s.delegations.any fun record => record.identity = identity then
      some .duplicateIdentity
    else if s.delegations.any fun record =>
        record.parentIdentity = parentIdentity && record.identity.path = identity.path then
      some .duplicatePath
    else if s.metadataLimit ≤ s.delegations.length then some .metadataExhausted
    else if parentIdentity.isSome && parent.all fun record => record.disposition = .returned then
      some .parentReturned
    else if (checkedAdd 64 usedBytes capacityBytes).all fun next =>
        limitBytes.all fun limit => limit < next then some .capacity
    else if s.log.counterOverflowed || (checkedAdd 128 s.requestedBytes capacityBytes).isNone ||
        parentIdentity.isNone && (checkedAdd 128 s.delegatedBytes capacityBytes).isNone ||
        parent.any (fun record => (checkedAdd 128 record.delegatedBytes capacityBytes).isNone ||
          (checkedAdd 64 record.liveChildren 1).isNone) then some .counterOverflow
    else none
  | _, _ => some .unconfiguredRoot

/-- The lender books the capacity as occupied and delegated. -/
def lend (s : LeaseState) (parentIdentity : Option LeaseIdentity) (capacityBytes : ℕ) :
    LeaseState :=
  match parentIdentity with
  | some parentIdentity =>
    s.modifyRecord parentIdentity fun parent =>
      { parent with
        usedBytes := parent.usedBytes + capacityBytes
        peakUsedBytes := max parent.peakUsedBytes (parent.usedBytes + capacityBytes)
        delegatedBytes := parent.delegatedBytes + capacityBytes
        liveChildren := parent.liveChildren + 1 }
  | none =>
    { s with
      usedBytes := s.usedBytes + capacityBytes
      peakBytes := max s.peakBytes (s.usedBytes + capacityBytes)
      requestedBytes := s.requestedBytes + capacityBytes
      delegatedBytes := s.delegatedBytes + capacityBytes }

def delegateFrom (s : LeaseState) (parentIdentity : Option LeaseIdentity)
    (parentPath : Option String) (identity : LeaseIdentity) (logicalPath : String)
    (capacityBytes : ℕ) : Except LeaseDelegationRefusal Unit × LeaseState :=
  let (sequence, s) := s.nextSequence
  let (usedBytes, limitBytes) := s.lender parentIdentity
  match s.delegationRefusal parentIdentity parentPath identity logicalPath capacityBytes with
  | some reason =>
    let refused := if reason = .counterOverflow then s.overflow else s
    let refused := parentIdentity.elim refused fun parentIdentity =>
      refused.countRecordRefusal parentIdentity capacityBytes
    (.error {
      rootIdentity := s.rootIdentity
      parentIdentity
      identity
      rootId := s.rootId
      parentPath
      logicalPath
      requestedBytes := capacityBytes
      usedBytes
      limitBytes
      reason
      sequence }, refused.recordSemanticRefusal {
        reason := reason.code
        identity := some identity
        site := logicalPath
        requestedBytes := some capacityBytes
        observedUsedBytes := usedBytes
        observedAuxiliary := limitBytes.getD (wordMax 64)
        sequence })
  | none =>
    let s := s.lend parentIdentity capacityBytes
    let record : DelegationRecord :=
      { parentIdentity, identity, parentPath, logicalPath, capacityBytes,
        createdSequence := sequence }
    (.ok (), { s with delegations := s.delegations ++ [record] })

/-! ### Ledger roots -/

def hashDelegation (hash : ReceiptHasher) (record : DelegationRecord) : ReceiptHasher :=
  let hash := hash.optional ReceiptHasher.identity record.parentIdentity
  let hash := (hash.identity record.identity).optional ReceiptHasher.text record.parentPath
  let hash := ((hash.text record.logicalPath).u64 record.capacityBytes).u64 record.peakUsedBytes
  let hash := (hash.u128 record.allocationGrantedBytes).u128 record.allocationReturnedBytes
  let hash := (hash.u128 record.allocationPublishedBytes).u128 record.delegatedBytes
  let hash := (hash.u128 record.returnedDelegatedBytes).u128 record.refusedRequests
  let hash := (hash.u128 record.refusedBytes).u128 record.createdSequence
  let hash := (hash.u128 (record.returnedSequence.getD 0)).boolean record.implicitReturn
  hash.bytes (record.closeRoot.getD (List.replicate 32 0))

def delegationRoot (records : List DelegationRecord) : Digest :=
  (records.foldl hashDelegation
    ((ReceiptHasher.new "fs-alloc-delegation-ledger-v2").usize records.length)).finish

def PublicationDisposition.ordinal : PublicationDisposition → ℕ
  | .prepared => 0
  | .published => 1
  | .rolledBack => 2

def hashPublication (hash : ReceiptHasher) (record : PublicationRecord) : ReceiptHasher :=
  let hash := hash.optional ReceiptHasher.identity record.parentIdentity
  let hash := (hash.identity record.childIdentity).publishedBinding record.binding
  let hash := (hash.publishedEnvelope record.envelope).u64 record.bytes
  let hash := (hash.u128 record.preparedSequence).u128 (record.resolvedSequence.getD 0)
  let hash := (hash.u16 (PublicationDisposition.ordinal record.disposition)).boolean
    record.implicitRollback
  hash.bytes (record.publishedReceiptRoot.getD (List.replicate 32 0))

def publicationRoot (records : List PublicationRecord) : Digest :=
  (records.foldl hashPublication
    ((ReceiptHasher.new "fs-alloc-publication-ledger-v1").usize records.length)).finish

def publicationRootForChild (records : List PublicationRecord) (childIdentity : LeaseIdentity) :
    Digest :=
  publicationRoot (records.filter fun record => record.childIdentity = childIdentity)

def sortDelegations (records : List DelegationRecord) : List DelegationRecord :=
  records.insertionSort fun a b => a.identity.sortKey ≤ b.identity.sortKey

def publicationSortKey (record : PublicationRecord) : List ℕ :=
  record.binding.sortKey ++ record.childIdentity.sortKey ++ [record.preparedSequence]

def sortPublications (records : List PublicationRecord) : List PublicationRecord :=
  records.insertionSort fun a b => publicationSortKey a ≤ publicationSortKey b

def countDisposition (records : List PublicationRecord) (disposition : PublicationDisposition) :
    ℕ :=
  records.countP fun record => record.disposition = disposition

/-! ### Sealing -/

def countLiveDelegations (s : LeaseState) : ℕ :=
  s.delegations.countP fun record => record.disposition = .live

def leaseReceipt (s : LeaseState) : LeaseReceipt where
  limitBytes := s.limitBytes
  requestedBytes := s.requestedBytes
  peakBytes := s.peakBytes
  usedBytes := s.usedBytes
  refusals := s.log.refusals
  releaseInvariantViolations := s.log.releaseInvariantViolations
  firstRefusal := s.log.firstRefusal

/-- A record that has not been returned with its totals balanced. -/
def unbalancedRecord (record : DelegationRecord) : Bool :=
  record.disposition ≠ .returned || record.usedBytes ≠ 0 || record.liveChildren ≠ 0 ||
    checkedAdd 128 record.allocationReturnedBytes record.allocationPublishedBytes ≠
      some record.allocationGrantedBytes ||
    record.delegatedBytes ≠ record.returnedDelegatedBytes

def sealRefusal (s : LeaseState) : Option SealRefusalReason :=
  if s.rootIdentity.isNone || s.rootId.isNone || s.limitBytes.isNone then some .unverifiedRoot
  else if s.log.counterOverflowed then some .counterOverflow
  else if s.log.releaseInvariantViolations ≠ 0 then some .releaseInvariant
  else if s.usedBytes ≠ 0 ∨ s.countLiveDelegations ≠ 0 then some .liveCapacity
  else if s.directGrantedBytes ≠ s.directReturnedBytes ||
      s.delegatedBytes ≠ s.returnedDelegatedBytes ||
      checkedAdd 128 s.childReturnedBytes s.childPublishedBytes ≠ some s.childGrantedBytes ||
      s.delegations.any unbalancedRecord ||
      s.publications.any (fun record => record.disposition = .prepared) then
    some .conservationMismatch
  else none

/-- The terminal receipt of a root without live capacity. -/
def terminal (s : LeaseState) (rootIdentity : LeaseIdentity) (rootId : String) (limitBytes : ℕ)
    (sealSequence closeSequence : ℕ) : SealedLeaseReceipt :=
  let receipt : SealedLeaseReceipt :=
    { schemaVersion := VERIFIED_RECEIPT_SCHEMA_VERSION
      rootIdentity
      rootId
      limitBytes
      metadataLimit := s.metadataLimit
      delegationCount := s.delegations.length
      directGrantedBytes := s.directGrantedBytes
      directReturnedBytes := s.directReturnedBytes
      delegatedBytes := s.delegatedBytes
      returnedDelegatedBytes := s.returnedDelegatedBytes
      childGrantedBytes := s.childGrantedBytes
      childReturnedBytes := s.childReturnedBytes
      childPublishedBytes := s.childPublishedBytes
      publicationRecordCount := s.publications.length
      publishedTransferCount := countDisposition s.publications .published
      rolledBackTransferCount := countDisposition s.publications .rolledBack
      refusedRequests := s.log.semanticRefusals
      refusedBytes := s.log.semanticRefusedBytes
      peakUsedBytes := s.peakBytes
      finalUsedBytes := s.usedBytes
      activeDelegations := 0
      releaseInvariantViolations := s.log.releaseInvariantViolations
      counterOverflowed := s.log.counterOverflowed
      sealSequence
      closeSequence
      refusalRoot := s.log.refusalRoot
      delegationRoot := delegationRoot s.delegations
      publicationRoot := publicationRoot s.publications
      receiptRoot := List.replicate 32 0
      receipt := s.leaseReceipt }
  { receipt with receiptRoot := receipt.recomputeRoot }

/-- The first seal freezes all admission. The receipt of a successful seal is kept
and verified before it is issued. -/
def sealRoot (s : LeaseState) : Option (Except LeaseSealRefusal SealedLeaseReceipt × LeaseState) :=
  match s.terminalReceipt with
  | some receipt => some (.ok receipt, s)
  | none =>
    let (observationSequence, s) := s.nextSequence
    let sealSequence := s.sealSequence.getD observationSequence
    let s := { s with sealed := true, sealSequence := some sealSequence }
    match s.sealRefusal with
    | some reason =>
      let activeDelegations := s.countLiveDelegations
      let refused := s.recordSemanticRefusal {
        reason := reason.code
        identity := s.rootIdentity
        site := s.rootId.getD "unverified-root"
        requestedBytes := none
        observedUsedBytes := s.usedBytes
        observedAuxiliary := activeDelegations
        sequence := observationSequence }
      some (.error {
        rootIdentity := s.rootIdentity
        rootId := s.rootId
        reason
        usedBytes := s.usedBytes
        activeDelegations
        releaseInvariantViolations := refused.log.releaseInvariantViolations
        sealSequence
        observationSequence }, refused)
    | none =>
      let s := { s with
        delegations := sortDelegations s.delegations
        publications := sortPublications s.publications }
      match s.rootIdentity, s.rootId, s.limitBytes with
      | some rootIdentity, some rootId, some limitBytes =>
        let receipt := s.terminal rootIdentity rootId limitBytes sealSequence observationSequence
        match receipt.verifyFor rootIdentity with
        | .error _ => none
        | .ok () => some (.ok receipt, { s with terminalReceipt := some receipt })
      | _, _, _ => none

end LeaseState

end FrankenSim.Lease
