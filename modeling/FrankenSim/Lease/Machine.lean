import FrankenSim.Lease.Transfers
import FrankenSim.Library.Runs

/-!
# The lease machine

The machine is one lease root together with the handles that its callers hold.
Each action is one critical section of the root's lock, so an interleaving of
threads is a list of actions. An action that consumes a handle removes it, and a
leaked handle is a handle that no later action names.
-/
namespace FrankenSim.Lease

open Library

/-- The owner of one delegated envelope. -/
structure DelegatedMemoryLease where
  identity : LeaseIdentity
  logicalPath : String
  capacityBytes : ℕ
  deriving DecidableEq, Repr

/-- A charge held at the root, or inside the envelope of an owner. -/
structure LeaseCharge where
  owner : Option LeaseIdentity
  bytes : ℕ
  deriving DecidableEq, Repr

structure Machine where
  state : LeaseState
  owners : List DelegatedMemoryLease
  charges : List LeaseCharge
  prepared : List PreparedTransfer
  published : List PublishedTransferReceipt

inductive Action
  | enableDelegation (rootIdentity : LeaseIdentity) (rootId : String) (metadataLimit : ℕ)
      (allocates : Bool)
  | reserve (what : String) (bytes : ℕ)
  | delegateCapacity (owner : Option DelegatedMemoryLease) (identity : LeaseIdentity)
      (logicalPath : String) (capacityBytes : ℕ)
  | reserveIn (owner : DelegatedMemoryLease) (site : String) (bytes : ℕ)
  | dropCharge (charge : LeaseCharge)
  | prepare (charge : LeaseCharge) (binding : PublishedTransferBinding)
      (envelope : PublishedTransferEnvelope)
  | publish (transfer : PreparedTransfer)
  | rollback (transfer : PreparedTransfer) (implicitRollback : Bool)
  | closePublished (published : PublishedTransferReceipt) (implicitClose : Bool)
  | closeOwner (owner : DelegatedMemoryLease) (implicitReturn : Bool)
  | sealRoot
  deriving DecidableEq, Repr

/-- The refusal of an action. -/
inductive Refusal
  | configuration (refusal : LeaseConfigurationRefusal)
  | root (refusal : LeaseRefusal)
  | delegation (refusal : LeaseDelegationRefusal)
  | charge (refusal : DelegatedLeaseRefusal)
  | transfer (refusal : PublishedTransferRefusal)
  | close (refusal : DelegatedLeaseCloseRefusal)
  | sealing (refusal : LeaseSealRefusal)
  deriving DecidableEq, Repr

/-- The internal inconsistencies among the refusals. -/
def Refusal.conservationMismatch : Refusal → Bool
  | transfer refusal => refusal.reason = .conservationMismatch
  | close refusal => refusal.reason = .conservationMismatch
  | sealing refusal => refusal.reason = .conservationMismatch
  | _ => false

namespace Machine

/-- A bounded root before its configuration, with no handles. -/
def start (limitBytes : ℕ) : Machine := ⟨LeaseState.bounded limitBytes, [], [], [], []⟩

/-- The caller holds the handles that the action names. -/
def Holds (m : Machine) : Action → Prop
  | .enableDelegation .. | .reserve .. | .sealRoot => True
  | .delegateCapacity owner .. => ∀ lease ∈ owner, lease ∈ m.owners
  | .reserveIn owner .. | .closeOwner owner .. => owner ∈ m.owners
  | .dropCharge charge => charge ∈ m.charges
  | .prepare charge .. => charge ∈ m.charges ∧ charge.owner.isSome
  | .publish transfer | .rollback transfer .. => transfer ∈ m.prepared
  | .closePublished published .. => published ∈ m.published

instance (m : Machine) (a : Action) : Decidable (m.Holds a) := by
  cases a <;> unfold Holds <;> infer_instance

abbrev Response := Except Refusal Unit

/-- A refused preparation keeps the charge and a refused publication keeps the
prepared handle; their drops follow as actions. Other resolutions consume the
handle whatever the result. -/
def exec (m : Machine) : Action → Option (Response × Machine)
  | .enableDelegation rootIdentity rootId metadataLimit allocates =>
    match m.state.enableDelegation rootIdentity rootId metadataLimit allocates with
    | (.ok (), state) => some (.ok (), { m with state })
    | (.error refusal, state) => some (.error (.configuration refusal), { m with state })
  | .reserve what bytes =>
    match m.state.reserve what bytes with
    | (.ok (), state) => some (.ok (), { m with state, charges := ⟨none, bytes⟩ :: m.charges })
    | (.error refusal, state) => some (.error (.root refusal), { m with state })
  | .delegateCapacity owner identity logicalPath capacityBytes =>
    match m.state.delegateFrom (owner.map DelegatedMemoryLease.identity)
        (owner.map DelegatedMemoryLease.logicalPath) identity logicalPath capacityBytes with
    | (.ok (), state) =>
      some (.ok (), { m with state, owners := ⟨identity, logicalPath, capacityBytes⟩ :: m.owners })
    | (.error refusal, state) => some (.error (.delegation refusal), { m with state })
  | .reserveIn owner site bytes =>
    match m.state.reserveDelegatedCharge owner.identity owner.capacityBytes owner.logicalPath site
        bytes with
    | none => none
    | some (.ok (), state) =>
      some (.ok (), { m with state, charges := ⟨some owner.identity, bytes⟩ :: m.charges })
    | some (.error refusal, state) => some (.error (.charge refusal), { m with state })
  | .dropCharge charge =>
    let charges := m.charges.erase charge
    match charge.owner with
    | none =>
      if charge.bytes = 0 then some (.ok (), { m with charges })
      else some (.ok (), { m with state := (m.state.releaseRaw charge.bytes).2, charges })
    | some identity =>
      some (.ok (), { m with state := m.state.releaseDelegated identity charge.bytes, charges })
  | .prepare charge binding envelope =>
    match charge.owner with
    | none => none
    | some identity =>
      match m.state.preparePublishedTransfer identity charge.bytes binding envelope with
      | none => none
      | some (.ok preparedSequence, state) =>
        some (.ok (), { m with
          state
          charges := m.charges.erase charge
          prepared := ⟨identity, binding, envelope, charge.bytes, preparedSequence⟩ :: m.prepared })
      | some (.error refusal, state) => some (.error (.transfer refusal), { m with state })
  | .publish transfer =>
    match m.state.publishPreparedTransfer transfer with
    | none => none
    | some (.ok receipt, state) =>
      some (.ok (), { m with
        state
        prepared := m.prepared.erase transfer
        published := receipt :: m.published })
    | some (.error refusal, state) => some (.error (.transfer refusal), { m with state })
  | .rollback transfer implicitRollback =>
    let prepared := m.prepared.erase transfer
    match m.state.rollbackPreparedTransfer transfer implicitRollback with
    | none => none
    | some (.ok _, state) => some (.ok (), { m with state, prepared })
    | some (.error refusal, state) => some (.error (.transfer refusal), { m with state, prepared })
  | .closePublished receipt implicitClose =>
    let published := m.published.erase receipt
    match m.state.closePublishedTransfer receipt implicitClose with
    | none => none
    | some (.ok _, state) => some (.ok (), { m with state, published })
    | some (.error refusal, state) => some (.error (.transfer refusal), { m with state, published })
  | .closeOwner owner implicitReturn =>
    let owners := m.owners.erase owner
    match m.state.returnDelegation owner.identity implicitReturn with
    | none => none
    | some (.ok _, state) => some (.ok (), { m with state, owners })
    | some (.error refusal, state) => some (.error (.close refusal), { m with state, owners })
  | .sealRoot =>
    match m.state.sealRoot with
    | none => none
    | some (.ok _, state) => some (.ok (), { m with state })
    | some (.error refusal, state) => some (.error (.sealing refusal), { m with state })

/-- One action of a caller that holds its handles; an action that would panic has
no step. -/
def Step (m : Machine) (a : Action) (m' : Machine) : Prop :=
  m.Holds a ∧ ∃ response, m.exec a = some (response, m')

end Machine

/-! ### Sums -/

/-- The bytes of the charges whose owner satisfies a predicate. -/
def held (charges : List LeaseCharge) (p : Option LeaseIdentity → Prop) [DecidablePred p] : ℕ :=
  totalWhere (fun charge => p charge.owner) LeaseCharge.bytes charges

/-- The capacities of the live envelopes lent by one account. -/
def nested (records : List DelegationRecord) (lender : Option LeaseIdentity) : ℕ :=
  totalWhere (fun record => record.disposition = .live ∧ record.parentIdentity = lender)
    DelegationRecord.capacityBytes records

def nestedCount (records : List DelegationRecord) (lender : Option LeaseIdentity) : ℕ :=
  totalWhere (fun record => record.disposition = .live ∧ record.parentIdentity = lender)
    (fun _ => 1) records

/-- The bytes of the publications with a disposition, over the children that
satisfy a predicate. -/
def transferred (records : List PublicationRecord) (disposition : PublicationDisposition)
    (p : LeaseIdentity → Prop) [DecidablePred p] : ℕ :=
  totalWhere (fun record => record.disposition = disposition ∧ p record.childIdentity)
    PublicationRecord.bytes records

end FrankenSim.Lease
