import FrankenSim.Lease.Identity

/-!
# Refusals and receipts

A refused operation reports what it saw under the lock. A completed publication,
rollback, destination close, child return or seal issues a receipt that binds its
fields by a recomputable root and verifies itself before it leaves the lock.
-/
namespace FrankenSim.Lease

open Library

def VERIFIED_RECEIPT_SCHEMA_VERSION : ℕ := 2

def PUBLISHED_TRANSFER_RECEIPT_SCHEMA_VERSION : ℕ := 1

/-! ### Refusals -/

inductive LeaseRefusalReason
  | capacity
  | sealed
  | counterOverflow
  deriving DecidableEq, Repr

def LeaseRefusalReason.code : LeaseRefusalReason → String
  | capacity => "capacity"
  | sealed => "sealed"
  | counterOverflow => "counter_overflow"

structure LeaseRefusal where
  what : String
  requestedBytes : ℕ
  usedBytes : ℕ
  limitBytes : ℕ
  reason : LeaseRefusalReason
  sequence : ℕ
  deriving DecidableEq, Repr

inductive ConfigurationRefusalReason
  | unboundedRoot
  | notPristine
  | alreadyConfigured
  | invalidRootIdentity
  | metadataLimit
  | metadataAllocation
  | sealed
  deriving DecidableEq, Repr

def ConfigurationRefusalReason.code : ConfigurationRefusalReason → String
  | unboundedRoot => "unbounded_root"
  | notPristine => "root_not_pristine"
  | alreadyConfigured => "already_configured"
  | invalidRootIdentity => "invalid_root_identity"
  | metadataLimit => "metadata_limit"
  | metadataAllocation => "metadata_allocation"
  | sealed => "sealed"

structure LeaseConfigurationRefusal where
  rootIdentity : LeaseIdentity
  rootId : String
  reason : ConfigurationRefusalReason
  sequence : ℕ
  deriving DecidableEq, Repr

inductive DelegationRefusalReason
  | unboundedParent
  | unconfiguredRoot
  | rootSealed
  | invalidIdentityRelationship
  | invalidLogicalPath
  | duplicateIdentity
  | duplicatePath
  | metadataExhausted
  | capacity
  | parentReturned
  | counterOverflow
  deriving DecidableEq, Repr

def DelegationRefusalReason.code : DelegationRefusalReason → String
  | unboundedParent => "unbounded_parent"
  | unconfiguredRoot => "unconfigured_root"
  | rootSealed => "root_sealed"
  | invalidIdentityRelationship => "invalid_identity_relationship"
  | invalidLogicalPath => "invalid_logical_path"
  | duplicateIdentity => "duplicate_identity"
  | duplicatePath => "duplicate_path"
  | metadataExhausted => "metadata_exhausted"
  | capacity => "capacity"
  | parentReturned => "parent_returned"
  | counterOverflow => "counter_overflow"

structure LeaseDelegationRefusal where
  rootIdentity : Option LeaseIdentity
  parentIdentity : Option LeaseIdentity
  identity : LeaseIdentity
  rootId : Option String
  parentPath : Option String
  logicalPath : String
  requestedBytes : ℕ
  usedBytes : ℕ
  limitBytes : Option ℕ
  reason : DelegationRefusalReason
  sequence : ℕ
  deriving DecidableEq, Repr

inductive DelegatedReservationRefusalReason
  | rootSealed
  | childReturned
  | capacity
  | counterOverflow
  deriving DecidableEq, Repr

def DelegatedReservationRefusalReason.code : DelegatedReservationRefusalReason → String
  | rootSealed => "root_sealed"
  | childReturned => "child_returned"
  | capacity => "capacity"
  | counterOverflow => "counter_overflow"

structure DelegatedLeaseRefusal where
  rootIdentity : LeaseIdentity
  identity : LeaseIdentity
  rootId : String
  logicalPath : String
  site : String
  requestedBytes : ℕ
  usedBytes : ℕ
  limitBytes : ℕ
  reason : DelegatedReservationRefusalReason
  sequence : ℕ
  deriving DecidableEq, Repr

inductive PublishedTransferOperation
  | prepare
  | publish
  | rollback
  | closeDestination
  deriving DecidableEq, Repr

def PublishedTransferOperation.code : PublishedTransferOperation → String
  | prepare => "prepare"
  | publish => "publish"
  | rollback => "rollback"
  | closeDestination => "close_destination"

inductive PublishedTransferRefusalReason
  | rootSealed
  | childReturned
  | zeroBytes
  | envelopeMismatch
  | duplicateBinding
  | metadataExhausted
  | transferUnavailable
  | conservationMismatch
  | counterOverflow
  deriving DecidableEq, Repr

def PublishedTransferRefusalReason.code : PublishedTransferRefusalReason → String
  | rootSealed => "root_sealed"
  | childReturned => "child_returned"
  | zeroBytes => "zero_bytes"
  | envelopeMismatch => "envelope_mismatch"
  | duplicateBinding => "duplicate_binding"
  | metadataExhausted => "metadata_exhausted"
  | transferUnavailable => "transfer_unavailable"
  | conservationMismatch => "conservation_mismatch"
  | counterOverflow => "counter_overflow"

structure PublishedTransferRefusal where
  rootIdentity : LeaseIdentity
  parentIdentity : Option LeaseIdentity
  childIdentity : LeaseIdentity
  binding : PublishedTransferBinding
  envelope : PublishedTransferEnvelope
  bytes : ℕ
  operation : PublishedTransferOperation
  reason : PublishedTransferRefusalReason
  sequence : ℕ
  deriving DecidableEq, Repr

inductive CloseRefusalReason
  | liveAllocation
  | liveChild
  | alreadyReturned
  | conservationMismatch
  | counterOverflow
  deriving DecidableEq, Repr

def CloseRefusalReason.code : CloseRefusalReason → String
  | liveAllocation => "live_allocation"
  | liveChild => "live_child"
  | alreadyReturned => "already_returned"
  | conservationMismatch => "conservation_mismatch"
  | counterOverflow => "counter_overflow"

structure DelegatedLeaseCloseRefusal where
  identity : LeaseIdentity
  logicalPath : String
  reason : CloseRefusalReason
  usedBytes : ℕ
  liveChildren : ℕ
  sequence : ℕ
  deriving DecidableEq, Repr

inductive SealRefusalReason
  | unverifiedRoot
  | liveCapacity
  | conservationMismatch
  | releaseInvariant
  | counterOverflow
  deriving DecidableEq, Repr

def SealRefusalReason.code : SealRefusalReason → String
  | unverifiedRoot => "unverified_root"
  | liveCapacity => "live_capacity"
  | conservationMismatch => "conservation_mismatch"
  | releaseInvariant => "release_invariant"
  | counterOverflow => "counter_overflow"

structure LeaseSealRefusal where
  rootIdentity : Option LeaseIdentity
  rootId : Option String
  reason : SealRefusalReason
  usedBytes : ℕ
  activeDelegations : ℕ
  releaseInvariantViolations : ℕ
  sealSequence : ℕ
  observationSequence : ℕ
  deriving DecidableEq, Repr

/-! ### Verification -/

/-- The checks of a receipt in order, each with the code it fails with. -/
def verify : List (Bool × String) → Except String Unit
  | [] => .ok ()
  | (true, reason) :: _ => .error reason
  | (false, _) :: checks => verify checks

theorem verify_ok {checks : List (Bool × String)} :
    verify checks = .ok () ↔ ∀ check ∈ checks, check.1 = false := by
  induction checks with
  | nil => simp [verify]
  | cons check checks ih =>
    obtain ⟨fails, reason⟩ := check
    cases fails with
    | true => simp [verify]
    | false => simp [verify, ih]

/-- The child does not hang off its parent, or off the root. -/
def brokenRelationship (rootIdentity : LeaseIdentity) (parentIdentity : Option LeaseIdentity)
    (childIdentity : LeaseIdentity) : Bool :=
  !rootIdentity.isRoot || parentIdentity.isNone && !childIdentity.isDirectChildOf rootIdentity ||
    parentIdentity.any fun parent => !childIdentity.isDirectChildOf parent

/-- What identifies one transfer. -/
structure TransferSubject where
  rootIdentity : LeaseIdentity
  parentIdentity : Option LeaseIdentity
  childIdentity : LeaseIdentity
  binding : PublishedTransferBinding
  envelope : PublishedTransferEnvelope
  deriving DecidableEq, Repr

def ReceiptHasher.subject (self : ReceiptHasher) (s : TransferSubject) : ReceiptHasher :=
  ((((self.identity s.rootIdentity).optional ReceiptHasher.identity s.parentIdentity).identity
    s.childIdentity).publishedBinding s.binding).publishedEnvelope s.envelope

/-- The checks that publication and rollback receipts share. -/
def transferChecks (schemaVersion : ℕ) (self expected : TransferSubject)
    (bytes preparedSequence resolvedSequence : ℕ) (rootMismatch : Bool) : List (Bool × String) :=
  [(schemaVersion ≠ PUBLISHED_TRANSFER_RECEIPT_SCHEMA_VERSION, "schema_version"),
    (self ≠ expected, "identity"),
    (brokenRelationship self.rootIdentity self.parentIdentity self.childIdentity,
      "identity_relationship"),
    (bytes = 0, "zero_bytes"),
    (self.envelope.totalBytes ≠ some bytes, "envelope"),
    (resolvedSequence ≤ preparedSequence, "sequence"),
    (rootMismatch, "receipt_root")]

structure PublishedTransferReceipt where
  schemaVersion : ℕ
  subject : TransferSubject
  bytes : ℕ
  preparedSequence : ℕ
  publishedSequence : ℕ
  receiptRoot : Digest
  deriving DecidableEq, Repr

namespace PublishedTransferReceipt

def recomputeRoot (self : PublishedTransferReceipt) : Digest :=
  (((((ReceiptHasher.new "fs-alloc-published-transfer-v1").u16 self.schemaVersion).subject
    self.subject).u64 self.bytes).u128 self.preparedSequence).u128 self.publishedSequence |>.finish

def verifyFor (self : PublishedTransferReceipt) (expected : TransferSubject) :
    Except String Unit :=
  verify (transferChecks self.schemaVersion self.subject expected self.bytes self.preparedSequence
    self.publishedSequence (self.recomputeRoot ≠ self.receiptRoot))

end PublishedTransferReceipt

structure PublishedTransferRollbackReceipt where
  schemaVersion : ℕ
  subject : TransferSubject
  bytes : ℕ
  preparedSequence : ℕ
  rolledBackSequence : ℕ
  implicitRollback : Bool
  receiptRoot : Digest
  deriving DecidableEq, Repr

namespace PublishedTransferRollbackReceipt

def recomputeRoot (self : PublishedTransferRollbackReceipt) : Digest :=
  ((((((ReceiptHasher.new "fs-alloc-published-rollback-v1").u16 self.schemaVersion).subject
    self.subject).u64 self.bytes).u128 self.preparedSequence).u128 self.rolledBackSequence).boolean
      self.implicitRollback |>.finish

def verifyFor (self : PublishedTransferRollbackReceipt) (expected : TransferSubject) :
    Except String Unit :=
  verify (transferChecks self.schemaVersion self.subject expected self.bytes self.preparedSequence
    self.rolledBackSequence (self.recomputeRoot ≠ self.receiptRoot))

end PublishedTransferRollbackReceipt

structure PublishedTransferCloseReceipt where
  schemaVersion : ℕ
  subject : TransferSubject
  bytes : ℕ
  publishedReceiptRoot : Digest
  publishedSequence : ℕ
  closedSequence : ℕ
  implicitClose : Bool
  receiptRoot : Digest
  deriving DecidableEq, Repr

namespace PublishedTransferCloseReceipt

def recomputeRoot (self : PublishedTransferCloseReceipt) : Digest :=
  (((((((ReceiptHasher.new "fs-alloc-published-close-v1").u16 self.schemaVersion).subject
    self.subject).u64 self.bytes).bytes self.publishedReceiptRoot).u128 self.publishedSequence).u128
      self.closedSequence).boolean self.implicitClose |>.finish

/-- A close verifies against the publication receipt, which verifies first. -/
def verifyFor (self : PublishedTransferCloseReceipt) (published : PublishedTransferReceipt) :
    Except String Unit := do
  published.verifyFor published.subject
  verify [(self.schemaVersion ≠ PUBLISHED_TRANSFER_RECEIPT_SCHEMA_VERSION, "schema_version"),
    (self.subject ≠ published.subject || self.bytes ≠ published.bytes ||
      self.publishedReceiptRoot ≠ published.receiptRoot, "identity"),
    (self.publishedSequence ≠ published.publishedSequence ||
      self.closedSequence ≤ self.publishedSequence, "sequence"),
    (self.recomputeRoot ≠ self.receiptRoot, "receipt_root")]

end PublishedTransferCloseReceipt

/-- The counts of publications do not add up, or do not fit the published bytes. -/
def publicationCountMismatch (publicationRecordCount publishedTransferCount
    rolledBackTransferCount publishedBytes : ℕ) : Bool :=
  checkedAdd 64 publishedTransferCount rolledBackTransferCount ≠ some publicationRecordCount ||
    publishedBytes = 0 && publishedTransferCount ≠ 0 ||
    publishedBytes ≠ 0 && publishedTransferCount = 0

structure DelegatedLeaseCloseReceipt where
  schemaVersion : ℕ
  rootIdentity : LeaseIdentity
  parentIdentity : Option LeaseIdentity
  identity : LeaseIdentity
  rootId : String
  parentPath : Option String
  logicalPath : String
  capacityBytes : ℕ
  allocationGrantedBytes : ℕ
  allocationReturnedBytes : ℕ
  allocationPublishedBytes : ℕ
  delegatedBytes : ℕ
  returnedDelegatedBytes : ℕ
  peakUsedBytes : ℕ
  finalUsedBytes : ℕ
  refusedRequests : ℕ
  refusedBytes : ℕ
  publicationRecordCount : ℕ
  publishedTransferCount : ℕ
  rolledBackTransferCount : ℕ
  publicationRoot : Digest
  createdSequence : ℕ
  returnedSequence : ℕ
  implicitReturn : Bool
  receiptRoot : Digest
  deriving DecidableEq, Repr

namespace DelegatedLeaseCloseReceipt

def recomputeRoot (self : DelegatedLeaseCloseReceipt) : Digest :=
  let hash := (ReceiptHasher.new "fs-alloc-child-close-v2").u16 self.schemaVersion
  let hash := hash.identity self.rootIdentity
  let hash := hash.optional ReceiptHasher.identity self.parentIdentity
  let hash := (hash.identity self.identity).text self.rootId
  let hash := (hash.optional ReceiptHasher.text self.parentPath).text self.logicalPath
  let hash := hash.u64 self.capacityBytes
  let hash := (hash.u128 self.allocationGrantedBytes).u128 self.allocationReturnedBytes
  let hash := hash.u128 self.allocationPublishedBytes
  let hash := (hash.u128 self.delegatedBytes).u128 self.returnedDelegatedBytes
  let hash := (hash.u64 self.peakUsedBytes).u64 self.finalUsedBytes
  let hash := (hash.u128 self.refusedRequests).u128 self.refusedBytes
  let hash := (hash.usize self.publicationRecordCount).usize self.publishedTransferCount
  let hash := (hash.usize self.rolledBackTransferCount).bytes self.publicationRoot
  let hash := (hash.u128 self.createdSequence).u128 self.returnedSequence
  (hash.boolean self.implicitReturn).finish

def verifyFor (self : DelegatedLeaseCloseReceipt) (rootIdentity : LeaseIdentity)
    (parentIdentity : Option LeaseIdentity) (identity : LeaseIdentity) : Except String Unit :=
  verify [(self.schemaVersion ≠ VERIFIED_RECEIPT_SCHEMA_VERSION, "schema_version"),
    (self.rootIdentity ≠ rootIdentity || self.parentIdentity ≠ parentIdentity ||
      self.identity ≠ identity, "identity"),
    (self.identity.rootSubject ≠ self.rootIdentity.rootSubject ||
      self.identity.domain ≠ self.rootIdentity.domain ||
      brokenRelationship self.rootIdentity self.parentIdentity self.identity,
      "identity_relationship"),
    (self.finalUsedBytes ≠ 0, "live_capacity"),
    (checkedAdd 128 self.allocationReturnedBytes self.allocationPublishedBytes ≠
        some self.allocationGrantedBytes ||
      self.delegatedBytes ≠ self.returnedDelegatedBytes, "conservation"),
    (publicationCountMismatch self.publicationRecordCount self.publishedTransferCount
      self.rolledBackTransferCount self.allocationPublishedBytes, "publication_count"),
    (self.capacityBytes < self.peakUsedBytes, "peak"),
    (self.returnedSequence ≤ self.createdSequence, "sequence"),
    (self.recomputeRoot ≠ self.receiptRoot, "receipt_root")]

end DelegatedLeaseCloseReceipt

/-- The accounting snapshot of a root. -/
structure LeaseReceipt where
  limitBytes : Option ℕ
  requestedBytes : ℕ
  peakBytes : ℕ
  usedBytes : ℕ
  refusals : ℕ
  releaseInvariantViolations : ℕ
  firstRefusal : Option LeaseRefusal
  deriving DecidableEq, Repr

structure SealedLeaseReceipt where
  schemaVersion : ℕ
  rootIdentity : LeaseIdentity
  rootId : String
  limitBytes : ℕ
  metadataLimit : ℕ
  delegationCount : ℕ
  directGrantedBytes : ℕ
  directReturnedBytes : ℕ
  delegatedBytes : ℕ
  returnedDelegatedBytes : ℕ
  childGrantedBytes : ℕ
  childReturnedBytes : ℕ
  childPublishedBytes : ℕ
  publicationRecordCount : ℕ
  publishedTransferCount : ℕ
  rolledBackTransferCount : ℕ
  refusedRequests : ℕ
  refusedBytes : ℕ
  peakUsedBytes : ℕ
  finalUsedBytes : ℕ
  activeDelegations : ℕ
  releaseInvariantViolations : ℕ
  counterOverflowed : Bool
  sealSequence : ℕ
  closeSequence : ℕ
  refusalRoot : Digest
  delegationRoot : Digest
  publicationRoot : Digest
  receiptRoot : Digest
  receipt : LeaseReceipt
  deriving DecidableEq, Repr

namespace SealedLeaseReceipt

def recomputeRoot (self : SealedLeaseReceipt) : Digest :=
  let hash := (ReceiptHasher.new "fs-alloc-root-close-v2").u16 self.schemaVersion
  let hash := (hash.identity self.rootIdentity).text self.rootId
  let hash := (hash.u64 self.limitBytes).usize self.metadataLimit
  let hash := hash.usize self.delegationCount
  let hash := (hash.u128 self.directGrantedBytes).u128 self.directReturnedBytes
  let hash := (hash.u128 self.delegatedBytes).u128 self.returnedDelegatedBytes
  let hash := (hash.u128 self.childGrantedBytes).u128 self.childReturnedBytes
  let hash := hash.u128 self.childPublishedBytes
  let hash := (hash.usize self.publicationRecordCount).usize self.publishedTransferCount
  let hash := hash.usize self.rolledBackTransferCount
  let hash := (hash.u128 self.refusedRequests).u128 self.refusedBytes
  let hash := (hash.u64 self.peakUsedBytes).u64 self.finalUsedBytes
  let hash := (hash.u64 self.activeDelegations).u128 self.releaseInvariantViolations
  let hash := hash.boolean self.counterOverflowed
  let hash := (hash.u128 self.sealSequence).u128 self.closeSequence
  let hash := (hash.bytes self.refusalRoot).bytes self.delegationRoot
  (hash.bytes self.publicationRoot).finish

def verifyFor (self : SealedLeaseReceipt) (rootIdentity : LeaseIdentity) : Except String Unit :=
  verify [(self.schemaVersion ≠ VERIFIED_RECEIPT_SCHEMA_VERSION, "schema_version"),
    (self.rootIdentity ≠ rootIdentity || !self.rootIdentity.isRoot, "identity"),
    (self.finalUsedBytes ≠ 0 || self.activeDelegations ≠ 0, "live_capacity"),
    (self.directGrantedBytes ≠ self.directReturnedBytes ||
      self.delegatedBytes ≠ self.returnedDelegatedBytes ||
      checkedAdd 128 self.childReturnedBytes self.childPublishedBytes ≠
        some self.childGrantedBytes, "conservation"),
    (publicationCountMismatch self.publicationRecordCount self.publishedTransferCount
      self.rolledBackTransferCount self.childPublishedBytes, "publication_count"),
    (self.releaseInvariantViolations ≠ 0, "release_invariant"),
    (self.counterOverflowed, "counter_overflow"),
    (self.limitBytes < self.peakUsedBytes, "peak"),
    (self.metadataLimit < self.delegationCount ||
      self.metadataLimit < self.publicationRecordCount, "metadata_limit"),
    (self.closeSequence < self.sealSequence, "sequence"),
    (self.recomputeRoot ≠ self.receiptRoot, "receipt_root")]

end SealedLeaseReceipt

end FrankenSim.Lease
