import FrankenSim.Lease.State

/-!
# Child envelopes and publications

A child envelope holds allocation charges, prepared publications and nested
envelopes. A prepared publication resolves once, into a publication or a rollback;
a published output is closed at its destination; an empty child is returned.
-/
namespace FrankenSim.Lease

open Library

/-- The handle of a prepared publication. -/
structure PreparedTransfer where
  childIdentity : LeaseIdentity
  binding : PublishedTransferBinding
  envelope : PublishedTransferEnvelope
  bytes : ℕ
  preparedSequence : ℕ
  deriving DecidableEq, Repr

def PublicationRecord.transfer (record : PublicationRecord) : PreparedTransfer :=
  ⟨record.childIdentity, record.binding, record.envelope, record.bytes, record.preparedSequence⟩

def PublishedTransferReceipt.transfer (receipt : PublishedTransferReceipt) : PreparedTransfer :=
  ⟨receipt.subject.childIdentity, receipt.subject.binding, receipt.subject.envelope,
    receipt.bytes, receipt.preparedSequence⟩

namespace LeaseState

def publication? (s : LeaseState) (transfer : PreparedTransfer) : Option PublicationRecord :=
  lookup PublicationRecord.transfer transfer s.publications

def modifyPublication (s : LeaseState) (transfer : PreparedTransfer)
    (f : PublicationRecord → PublicationRecord) : LeaseState :=
  { s with publications := modifyKey PublicationRecord.transfer transfer f s.publications }

/-! ### Charges of a child -/

def delegatedReservationRefusal (s : LeaseState) (record : DelegationRecord)
    (capacityBytes bytes : ℕ) : Option DelegatedReservationRefusalReason :=
  if s.sealed then some .rootSealed
  else if record.disposition = .returned then some .childReturned
  else if s.log.counterOverflowed ||
      (checkedAdd 128 record.allocationGrantedBytes bytes).isNone ||
      (checkedAdd 128 s.childGrantedBytes bytes).isNone then some .counterOverflow
  else if (checkedAdd 64 record.usedBytes bytes).all fun next => capacityBytes < next then
    some .capacity
  else none

def reserveDelegatedCharge (s : LeaseState) (identity : LeaseIdentity) (capacityBytes : ℕ)
    (logicalPath site : String) (bytes : ℕ) :
    Option (Except DelegatedLeaseRefusal Unit × LeaseState) := do
  let (sequence, s) := s.nextSequence
  let rootIdentity ← s.rootIdentity
  let rootId ← s.rootId
  let record ← s.record? identity
  match s.delegatedReservationRefusal record capacityBytes bytes with
  | some reason =>
    let refused := if reason = .counterOverflow then s.overflow else s
    let refused := refused.countRecordRefusal identity bytes
    return (.error {
      rootIdentity
      identity
      rootId
      logicalPath
      site
      requestedBytes := bytes
      usedBytes := record.usedBytes
      limitBytes := capacityBytes
      reason
      sequence }, refused.recordSemanticRefusal {
        reason := reason.code
        identity := some identity
        site
        requestedBytes := some bytes
        observedUsedBytes := record.usedBytes
        observedAuxiliary := capacityBytes
        sequence })
  | none =>
    let s := s.modifyRecord identity fun record =>
      { record with
        usedBytes := record.usedBytes + bytes
        peakUsedBytes := max record.peakUsedBytes (record.usedBytes + bytes)
        allocationGrantedBytes := record.allocationGrantedBytes + bytes }
    return (.ok (), { s with childGrantedBytes := s.childGrantedBytes + bytes })

def releaseDelegated (s : LeaseState) (identity : LeaseIdentity) (bytes : ℕ) : LeaseState :=
  let (_, s) := s.nextSequence
  match s.record? identity with
  | none => s.incrementInvariantViolation
  | some record =>
    if record.disposition ≠ .live ∨ record.usedBytes < bytes then s.incrementInvariantViolation
    else
      match checkedAdd 128 record.allocationReturnedBytes bytes,
          checkedAdd 128 s.childReturnedBytes bytes with
      | some _, some childReturnedBytes =>
        { s.modifyRecord identity fun record => { record with
            usedBytes := record.usedBytes - bytes
            allocationReturnedBytes := record.allocationReturnedBytes + bytes } with
          childReturnedBytes }
      | _, _ => s.overflow.incrementInvariantViolation

/-! ### Publications -/

def recordPublishedTransferRefusal (s : LeaseState) (subject : TransferSubject) (bytes : ℕ)
    (operation : PublishedTransferOperation) (reason : PublishedTransferRefusalReason)
    (sequence : ℕ) : PublishedTransferRefusal × LeaseState :=
  ({ rootIdentity := subject.rootIdentity
     parentIdentity := subject.parentIdentity
     childIdentity := subject.childIdentity
     binding := subject.binding
     envelope := subject.envelope
     bytes
     operation
     reason
     sequence }, s.recordSemanticRefusal {
       reason := reason.code
       identity := some subject.childIdentity
       site := operation.code
       requestedBytes := some bytes
       observedUsedBytes := (s.record? subject.childIdentity).elim 0 DelegationRecord.usedBytes
       observedAuxiliary := s.publications.length
       sequence })

def prepareRefusal (s : LeaseState) (child : DelegationRecord) (bytes : ℕ)
    (binding : PublishedTransferBinding) (envelope : PublishedTransferEnvelope) :
    Option PublishedTransferRefusalReason :=
  if s.sealed then some .rootSealed
  else if child.disposition ≠ .live then some .childReturned
  else if bytes = 0 then some .zeroBytes
  else if envelope.totalBytes ≠ some bytes then some .envelopeMismatch
  else if s.publications.any fun record => record.binding = binding then some .duplicateBinding
  else if s.metadataLimit ≤ s.publications.length then some .metadataExhausted
  else if child.usedBytes < bytes then some .conservationMismatch
  else if s.log.counterOverflowed then some .counterOverflow
  else none

def preparePublishedTransfer (s : LeaseState) (childIdentity : LeaseIdentity) (bytes : ℕ)
    (binding : PublishedTransferBinding) (envelope : PublishedTransferEnvelope) :
    Option (Except PublishedTransferRefusal ℕ × LeaseState) := do
  let (sequence, s) := s.nextSequence
  let rootIdentity ← s.rootIdentity
  let child ← s.record? childIdentity
  let parentIdentity := child.parentIdentity
  match s.prepareRefusal child bytes binding envelope with
  | some reason =>
    let (refusal, s) := s.recordPublishedTransferRefusal
      ⟨rootIdentity, parentIdentity, childIdentity, binding, envelope⟩ bytes .prepare reason sequence
    return (.error refusal, s)
  | none =>
    let record : PublicationRecord :=
      { parentIdentity, childIdentity, binding, envelope, bytes, preparedSequence := sequence }
    return (.ok sequence, { s with publications := s.publications ++ [record] })

/-- The refusal to resolve a prepared publication into one of two totals. -/
def resolutionRefusal (s : LeaseState) (child : DelegationRecord) (transfer : PreparedTransfer)
    (childTotal total : ℕ) : Option PublishedTransferRefusalReason :=
  if child.disposition ≠ .live then some .childReturned
  else if (s.publication? transfer).all fun record => record.disposition ≠ .prepared then
    some .transferUnavailable
  else if child.usedBytes < transfer.bytes then some .conservationMismatch
  else if s.log.counterOverflowed || (checkedAdd 128 childTotal transfer.bytes).isNone ||
      (checkedAdd 128 total transfer.bytes).isNone then some .counterOverflow
  else none

def publishPreparedTransfer (s : LeaseState) (transfer : PreparedTransfer) :
    Option (Except PublishedTransferRefusal PublishedTransferReceipt × LeaseState) := do
  let (sequence, s) := s.nextSequence
  let rootIdentity ← s.rootIdentity
  let child ← s.record? transfer.childIdentity
  let subject : TransferSubject := ⟨rootIdentity, child.parentIdentity, transfer.childIdentity,
    transfer.binding, transfer.envelope⟩
  match s.resolutionRefusal child transfer child.allocationPublishedBytes
      s.childPublishedBytes with
  | some reason =>
    let (refusal, s) :=
      s.recordPublishedTransferRefusal subject transfer.bytes .publish reason sequence
    return (.error refusal, s)
  | none =>
    let receipt : PublishedTransferReceipt :=
      { schemaVersion := PUBLISHED_TRANSFER_RECEIPT_SCHEMA_VERSION
        subject
        bytes := transfer.bytes
        preparedSequence := transfer.preparedSequence
        publishedSequence := sequence
        receiptRoot := List.replicate 32 0 }
    let receipt := { receipt with receiptRoot := receipt.recomputeRoot }
    match receipt.verifyFor subject with
    | .error _ => none
    | .ok () =>
      let s := s.modifyRecord transfer.childIdentity fun child => { child with
        usedBytes := child.usedBytes - transfer.bytes
        allocationPublishedBytes := child.allocationPublishedBytes + transfer.bytes }
      let s := s.modifyPublication transfer fun publication => { publication with
        disposition := .published
        resolvedSequence := some sequence
        publishedReceiptRoot := some receipt.receiptRoot }
      return (.ok receipt, { s with childPublishedBytes := s.childPublishedBytes + transfer.bytes })

def rollbackPreparedTransfer (s : LeaseState) (transfer : PreparedTransfer)
    (implicitRollback : Bool) :
    Option (Except PublishedTransferRefusal PublishedTransferRollbackReceipt × LeaseState) := do
  let (sequence, s) := s.nextSequence
  let rootIdentity ← s.rootIdentity
  let child ← s.record? transfer.childIdentity
  let subject : TransferSubject := ⟨rootIdentity, child.parentIdentity, transfer.childIdentity,
    transfer.binding, transfer.envelope⟩
  match s.resolutionRefusal child transfer child.allocationReturnedBytes s.childReturnedBytes with
  | some reason =>
    let s := if implicitRollback then s.incrementInvariantViolation else s
    let (refusal, s) :=
      s.recordPublishedTransferRefusal subject transfer.bytes .rollback reason sequence
    return (.error refusal, s)
  | none =>
    let receipt : PublishedTransferRollbackReceipt :=
      { schemaVersion := PUBLISHED_TRANSFER_RECEIPT_SCHEMA_VERSION
        subject
        bytes := transfer.bytes
        preparedSequence := transfer.preparedSequence
        rolledBackSequence := sequence
        implicitRollback
        receiptRoot := List.replicate 32 0 }
    let receipt := { receipt with receiptRoot := receipt.recomputeRoot }
    match receipt.verifyFor subject with
    | .error _ => none
    | .ok () =>
      let s := s.modifyRecord transfer.childIdentity fun child => { child with
        usedBytes := child.usedBytes - transfer.bytes
        allocationReturnedBytes := child.allocationReturnedBytes + transfer.bytes }
      let s := s.modifyPublication transfer fun publication => { publication with
        disposition := .rolledBack
        resolvedSequence := some sequence
        implicitRollback }
      return (.ok receipt, { s with childReturnedBytes := s.childReturnedBytes + transfer.bytes })

def closePublishedRefusal (s : LeaseState) (published : PublishedTransferReceipt) :
    Option PublishedTransferRefusalReason :=
  if (s.publication? published.transfer).all fun record =>
      record.disposition ≠ .published ||
        record.resolvedSequence ≠ some published.publishedSequence ||
        record.publishedReceiptRoot ≠ some published.receiptRoot ||
        record.destinationClosedSequence.isSome then some .transferUnavailable
  else if s.log.counterOverflowed then some .counterOverflow
  else none

def closePublishedTransfer (s : LeaseState) (published : PublishedTransferReceipt)
    (implicitClose : Bool) :
    Option (Except PublishedTransferRefusal PublishedTransferCloseReceipt × LeaseState) := do
  let (sequence, s) := s.nextSequence
  match s.closePublishedRefusal published with
  | some reason =>
    let s := if implicitClose then s.incrementInvariantViolation else s
    let (refusal, s) := s.recordPublishedTransferRefusal published.subject published.bytes
      .closeDestination reason sequence
    return (.error refusal, s)
  | none =>
    let receipt : PublishedTransferCloseReceipt :=
      { schemaVersion := PUBLISHED_TRANSFER_RECEIPT_SCHEMA_VERSION
        subject := published.subject
        bytes := published.bytes
        publishedReceiptRoot := published.receiptRoot
        publishedSequence := published.publishedSequence
        closedSequence := sequence
        implicitClose
        receiptRoot := List.replicate 32 0 }
    let receipt := { receipt with receiptRoot := receipt.recomputeRoot }
    match receipt.verifyFor published with
    | .error _ => none
    | .ok () =>
      return (.ok receipt, s.modifyPublication published.transfer fun publication =>
        { publication with
          destinationClosedSequence := some sequence
          implicitDestinationClose := implicitClose
          destinationCloseRoot := some receipt.receiptRoot })

/-! ### The return of a child -/

def closeRefusal (s : LeaseState) (record : DelegationRecord) : Option CloseRefusalReason :=
  if record.disposition = .returned then some .alreadyReturned
  else if record.liveChildren ≠ 0 then some .liveChild
  else if record.usedBytes ≠ 0 then some .liveAllocation
  else if checkedAdd 128 record.allocationReturnedBytes record.allocationPublishedBytes ≠
        some record.allocationGrantedBytes ||
      record.delegatedBytes ≠ record.returnedDelegatedBytes then some .conservationMismatch
  else if s.log.counterOverflowed then some .counterOverflow
  else none

/-- The lender cannot take the capacity back; `none` when its record is missing. -/
def lenderMismatch (s : LeaseState) (record : DelegationRecord) : Option Bool :=
  match record.parentIdentity with
  | some parentIdentity =>
    (s.record? parentIdentity).map fun parent =>
      parent.usedBytes < record.capacityBytes || parent.liveChildren = 0 ||
        (checkedAdd 128 parent.returnedDelegatedBytes record.capacityBytes).isNone
  | none =>
    some (s.usedBytes < record.capacityBytes ||
      (checkedAdd 128 s.returnedDelegatedBytes record.capacityBytes).isNone)

/-- The lender takes the capacity back. -/
def takeBack (s : LeaseState) (record : DelegationRecord) : LeaseState :=
  match record.parentIdentity with
  | some parentIdentity =>
    s.modifyRecord parentIdentity fun parent => { parent with
      usedBytes := parent.usedBytes - record.capacityBytes
      liveChildren := parent.liveChildren - 1
      returnedDelegatedBytes := parent.returnedDelegatedBytes + record.capacityBytes }
  | none =>
    { s with
      usedBytes := s.usedBytes - record.capacityBytes
      returnedDelegatedBytes := s.returnedDelegatedBytes + record.capacityBytes }

def countForChild (s : LeaseState) (identity : LeaseIdentity)
    (disposition : PublicationDisposition) : ℕ :=
  s.publications.countP fun record =>
    record.childIdentity = identity && record.disposition = disposition

def closeReceipt (s : LeaseState) (rootIdentity : LeaseIdentity) (rootId : String)
    (record : DelegationRecord) (sequence : ℕ) (implicitReturn : Bool) :
    DelegatedLeaseCloseReceipt :=
  let receipt : DelegatedLeaseCloseReceipt :=
    { schemaVersion := VERIFIED_RECEIPT_SCHEMA_VERSION
      rootIdentity
      parentIdentity := record.parentIdentity
      identity := record.identity
      rootId
      parentPath := record.parentPath
      logicalPath := record.logicalPath
      capacityBytes := record.capacityBytes
      allocationGrantedBytes := record.allocationGrantedBytes
      allocationReturnedBytes := record.allocationReturnedBytes
      allocationPublishedBytes := record.allocationPublishedBytes
      delegatedBytes := record.delegatedBytes
      returnedDelegatedBytes := record.returnedDelegatedBytes
      peakUsedBytes := record.peakUsedBytes
      finalUsedBytes := record.usedBytes
      refusedRequests := record.refusedRequests
      refusedBytes := record.refusedBytes
      publicationRecordCount :=
        s.publications.countP fun publication => publication.childIdentity = record.identity
      publishedTransferCount := s.countForChild record.identity .published
      rolledBackTransferCount := s.countForChild record.identity .rolledBack
      publicationRoot := publicationRootForChild s.publications record.identity
      createdSequence := record.createdSequence
      returnedSequence := sequence
      implicitReturn
      receiptRoot := List.replicate 32 0 }
  { receipt with receiptRoot := receipt.recomputeRoot }

def returnDelegation (s : LeaseState) (identity : LeaseIdentity) (implicitReturn : Bool) :
    Option (Except DelegatedLeaseCloseRefusal DelegatedLeaseCloseReceipt × LeaseState) := do
  let (sequence, s) := s.nextSequence
  let rootIdentity ← s.rootIdentity
  let rootId ← s.rootId
  let record ← s.record? identity
  let refusal := fun reason : CloseRefusalReason => (Except.error {
    identity
    logicalPath := record.logicalPath
    reason
    usedBytes := record.usedBytes
    liveChildren := record.liveChildren
    sequence } : Except DelegatedLeaseCloseRefusal DelegatedLeaseCloseReceipt)
  match s.closeRefusal record with
  | some reason =>
    let s := if implicitReturn then s.incrementInvariantViolation else s
    return (refusal reason, s.recordSemanticRefusal {
      reason := reason.code
      identity := some identity
      site := record.logicalPath
      requestedBytes := none
      observedUsedBytes := record.usedBytes
      observedAuxiliary := record.liveChildren
      sequence })
  | none =>
    let s := { s with publications := sortPublications s.publications }
    if checkedAdd 64 (s.countForChild identity .published) (s.countForChild identity .rolledBack) ≠
        some (s.publications.countP fun publication => publication.childIdentity = identity) then
      return (refusal .conservationMismatch, s.incrementInvariantViolation)
    let mismatch ← s.lenderMismatch record
    if mismatch then
      return (refusal .conservationMismatch, s.incrementInvariantViolation)
    let receipt := s.closeReceipt rootIdentity rootId record sequence implicitReturn
    match receipt.verifyFor rootIdentity record.parentIdentity identity with
    | .error _ => none
    | .ok () =>
      return (.ok receipt, (s.takeBack record).modifyRecord identity fun record => { record with
        disposition := .returned
        returnedSequence := some sequence
        implicitReturn
        closeRoot := some receipt.receiptRoot })

end LeaseState

end FrankenSim.Lease
