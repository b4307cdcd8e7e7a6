import FrankenSim.Library.Words
import Mathlib.Data.List.Lex

/-!
# Lease identities and receipt hashes

A lease identity binds an envelope to its root, its transferor, its owner and its
place in the delegation tree. Fixed-width byte arrays are numbers here, read most
significant byte first, so that their order is the order of the arrays. The
hasher is the deterministic mixer of the receipts.
-/
namespace FrankenSim.Lease

open Library

def LEASE_IDENTITY_SCHEMA_VERSION : ℕ := 1

def LEASE_IDENTITY_MAX_PATH_COMPONENTS : ℕ := 16

def PUBLISHED_TRANSFER_BINDING_SCHEMA_VERSION : ℕ := 1

def PUBLISHED_TRANSFER_ENVELOPE_SCHEMA_VERSION : ℕ := 1

def MAX_LOGICAL_ID_BYTES : ℕ := 256

structure LeaseIdentity where
  domain : BitVec 64
  rootSubject : BitVec 256
  parentSubject : BitVec 256
  ownerSubject : BitVec 256
  path : List UInt64
  path_le : path.length ≤ LEASE_IDENTITY_MAX_PATH_COMPONENTS
  deriving DecidableEq, Repr

structure LeaseIdentityPathError where
  maximumComponents : ℕ
  deriving DecidableEq, Repr

namespace LeaseIdentity

/-- The root owns itself and has an empty path. -/
def root (domain : BitVec 64) (rootSubject : BitVec 256) : LeaseIdentity where
  domain := domain
  rootSubject := rootSubject
  parentSubject := rootSubject
  ownerSubject := rootSubject
  path := []
  path_le := Nat.zero_le _

/-- A direct child appends a path component and names its transferor. -/
def child (self : LeaseIdentity) (ownerSubject : BitVec 256) (pathComponent : UInt64) :
    Except LeaseIdentityPathError LeaseIdentity :=
  if h : self.path.length < LEASE_IDENTITY_MAX_PATH_COMPONENTS then
    .ok { self with
      parentSubject := self.ownerSubject
      ownerSubject := ownerSubject
      path := self.path ++ [pathComponent]
      path_le := by simpa using h }
  else .error ⟨LEASE_IDENTITY_MAX_PATH_COMPONENTS⟩

def isRoot (self : LeaseIdentity) : Bool :=
  self.path.isEmpty && self.parentSubject = self.rootSubject &&
    self.ownerSubject = self.rootSubject

def isDirectChildOf (self parent : LeaseIdentity) : Bool :=
  self.domain = parent.domain && self.rootSubject = parent.rootSubject &&
    self.parentSubject = parent.ownerSubject &&
    self.path.length = parent.path.length + 1 &&
    self.path.take parent.path.length = parent.path

def canonicalBytes (self : LeaseIdentity) : List UInt8 :=
  leBytes 2 LEASE_IDENTITY_SCHEMA_VERSION ++ beBytes 8 self.domain.toNat ++
    beBytes 32 self.rootSubject.toNat ++ beBytes 32 self.parentSubject.toNat ++
    beBytes 32 self.ownerSubject.toNat ++ leBytes 1 self.path.length ++
    self.path.flatMap (fun component => leBytes 8 component.toNat) ++
    List.replicate (8 * (LEASE_IDENTITY_MAX_PATH_COMPONENTS - self.path.length)) 0

/-- The order of identities is the order of their fields. -/
def sortKey (self : LeaseIdentity) : List ℕ :=
  [self.domain.toNat, self.rootSubject.toNat, self.parentSubject.toNat, self.ownerSubject.toNat,
    self.path.length] ++ self.path.map UInt64.toNat

theorem isDirectChildOf_subjects {self parent : LeaseIdentity}
    (h : self.isDirectChildOf parent = true) :
    self.rootSubject = parent.rootSubject ∧ self.domain = parent.domain := by
  simp only [isDirectChildOf, Bool.and_eq_true, decide_eq_true_eq] at h
  exact ⟨h.1.1.1.2, h.1.1.1.1⟩

/-- A direct child lies one level below its parent. -/
theorem length_of_isDirectChildOf {self parent : LeaseIdentity}
    (h : self.isDirectChildOf parent = true) : self.path.length = parent.path.length + 1 := by
  simp only [isDirectChildOf, Bool.and_eq_true, decide_eq_true_eq] at h
  exact h.1.2

end LeaseIdentity

/-- The identity of one planned publication into one destination. -/
structure PublishedTransferBinding where
  planIdentity : BitVec 256
  occurrenceIdentity : BitVec 256
  outputIdentity : BitVec 256
  destinationIdentity : BitVec 256
  deriving DecidableEq, Repr

namespace PublishedTransferBinding

def canonicalBytes (self : PublishedTransferBinding) : List UInt8 :=
  leBytes 2 PUBLISHED_TRANSFER_BINDING_SCHEMA_VERSION ++ beBytes 32 self.planIdentity.toNat ++
    beBytes 32 self.occurrenceIdentity.toNat ++ beBytes 32 self.outputIdentity.toNat ++
    beBytes 32 self.destinationIdentity.toNat

def sortKey (self : PublishedTransferBinding) : List ℕ :=
  [self.planIdentity.toNat, self.occurrenceIdentity.toNat, self.outputIdentity.toNat,
    self.destinationIdentity.toNat]

end PublishedTransferBinding

/-- The byte composition of a published output. -/
structure PublishedTransferEnvelope where
  payloadBytes : ℕ
  layoutBytes : ℕ
  overheadBytes : ℕ
  deriving DecidableEq, Repr

namespace PublishedTransferEnvelope

def payloadOnly (payloadBytes : ℕ) : PublishedTransferEnvelope := ⟨payloadBytes, 0, 0⟩

def totalBytes (self : PublishedTransferEnvelope) : Option ℕ :=
  (checkedAdd 64 self.payloadBytes self.layoutBytes).bind fun payloadAndLayout =>
    checkedAdd 64 payloadAndLayout self.overheadBytes

def canonicalBytes (self : PublishedTransferEnvelope) : List UInt8 :=
  leBytes 2 PUBLISHED_TRANSFER_ENVELOPE_SCHEMA_VERSION ++ leBytes 8 self.payloadBytes ++
    leBytes 8 self.layoutBytes ++ leBytes 8 self.overheadBytes

end PublishedTransferEnvelope

/-! ### Logical names -/

def SLASH : UInt8 := 47

/-- ASCII letters and digits, and `.`, `_` and `-`. -/
def validIdentityByte (byte : UInt8) : Bool :=
  (48 ≤ byte && byte ≤ 57) || (65 ≤ byte && byte ≤ 90) || (97 ≤ byte && byte ≤ 122) ||
    byte = 46 || byte = 95 || byte = 45

def validRootId (rootId : String) : Bool :=
  let bytes := utf8 rootId
  !bytes.isEmpty && bytes.length ≤ MAX_LOGICAL_ID_BYTES && !bytes.contains SLASH &&
    bytes.all validIdentityByte

/-- A path extends the path of its parent, or the root name, by nonempty parts. -/
def validLogicalPath (rootId : String) (parentPath : Option String) (path : String) : Bool :=
  let bytes := utf8 path
  let prefixBytes := utf8 (parentPath.getD rootId)
  !bytes.isEmpty && bytes.length ≤ MAX_LOGICAL_ID_BYTES && bytes.head? ≠ some SLASH &&
    bytes.getLast? ≠ some SLASH && !(bytes.splitOn SLASH).any List.isEmpty &&
    bytes.all (fun byte => byte = SLASH || validIdentityByte byte) &&
    prefixBytes.isPrefixOf bytes &&
    (bytes.drop prefixBytes.length).head? = some SLASH &&
    1 < (bytes.drop prefixBytes.length).length

/-! ### The receipt hasher -/

abbrev Digest := List UInt8

structure ReceiptHasher where
  lanes : Vector UInt64 4

namespace ReceiptHasher

def rotateLeft (x k : UInt64) : UInt64 := (x <<< k) ||| (x >>> (64 - k))

def rotateRight (x k : UInt64) : UInt64 := (x >>> k) ||| (x <<< (64 - k))

/-- One byte is mixed into its lane, and the lane into the next. -/
def mixByte (self : ReceiptHasher) (byte : UInt8 × ℕ) : ReceiptHasher :=
  let lane := Fin.ofNat 4 byte.2
  let next := lane + 1
  let mixed := rotateLeft ((self.lanes[lane] ^^^ byte.1.toUInt64) * 0x100000001b3)
    (13 + 7 * UInt64.ofNat lane)
  let lanes := self.lanes.set lane mixed
  ⟨lanes.set next (lanes[next] ^^^ rotateRight mixed 17)⟩

def rawBytes (self : ReceiptHasher) (bytes : List UInt8) : ReceiptHasher :=
  bytes.zipIdx.foldl mixByte self

/-- Every field is prefixed with its length. -/
def bytes (self : ReceiptHasher) (bytes : List UInt8) : ReceiptHasher :=
  (self.rawBytes (leBytes 16 bytes.length)).rawBytes bytes

def new (domain : String) : ReceiptHasher :=
  bytes ⟨#v[0xcbf29ce484222325, 0x9e3779b97f4a7c15, 0x243f6a8885a308d3, 0x13198a2e03707344]⟩
    (utf8 domain)

def text (self : ReceiptHasher) (value : String) : ReceiptHasher := self.bytes (utf8 value)

def boolean (self : ReceiptHasher) (value : Bool) : ReceiptHasher :=
  self.bytes [if value then 1 else 0]

def u16 (self : ReceiptHasher) (value : ℕ) : ReceiptHasher := self.bytes (leBytes 2 value)

def u64 (self : ReceiptHasher) (value : ℕ) : ReceiptHasher := self.bytes (leBytes 8 value)

def u128 (self : ReceiptHasher) (value : ℕ) : ReceiptHasher := self.bytes (leBytes 16 value)

def usize (self : ReceiptHasher) (value : ℕ) : ReceiptHasher := self.u128 value

def identity (self : ReceiptHasher) (value : LeaseIdentity) : ReceiptHasher :=
  self.bytes value.canonicalBytes

def optional {α : Type} (self : ReceiptHasher) (field : ReceiptHasher → α → ReceiptHasher) :
    Option α → ReceiptHasher
  | some value => field (self.boolean true) value
  | none => self.boolean false

def publishedBinding (self : ReceiptHasher) (value : PublishedTransferBinding) : ReceiptHasher :=
  self.bytes value.canonicalBytes

def publishedEnvelope (self : ReceiptHasher) (value : PublishedTransferEnvelope) : ReceiptHasher :=
  self.bytes value.canonicalBytes

def finishRound (lanes : Vector UInt64 4) (round : ℕ) : Vector UInt64 4 :=
  let lane := Fin.ofNat 4 round
  let next := lane + 1
  lanes.set lane (rotateLeft ((lanes[lane] ^^^ rotateLeft lanes[next] 19) * 0x9e3779b185ebca87) 23)

def finish (self : ReceiptHasher) : Digest :=
  ((List.range 12).foldl finishRound self.lanes).toList.flatMap fun lane => leBytes 8 lane.toNat

end ReceiptHasher

end FrankenSim.Lease
