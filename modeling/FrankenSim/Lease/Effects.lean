import FrankenSim.Lease.Accounts

/-!
# What a step of the lease machine can do

A refused action leaves the books unchanged. A completed action has one effect,
which books an amount on one account, lends or takes back a capacity, stages or
resolves a publication, or closes the root. Every effect keeps the machine sound.
-/
namespace FrankenSim.Lease

open Library

namespace Machine

/-- The books and the sums of charges stay; handles may have been consumed. -/
structure Unchanged (m m' : Machine) : Prop where
  books : m'.state.books = m.state.books
  held : ∀ (p : Option LeaseIdentity → Prop) [DecidablePred p], held m'.charges p = held m.charges p
  owners : m'.owners ⊆ m.owners
  charges : m'.charges ⊆ m.charges
  prepared : m'.prepared ⊆ m.prepared
  published : m'.published ⊆ m.published
  sequence : m.state.log.sequence ≤ m'.state.log.sequence
  sealed : m.state.sealed = true → m'.state.sealed = true
  sealing : ∀ sequence ∈ m'.state.sealSequence,
    sequence ∈ m.state.sealSequence ∨ sequence ≤ m'.state.log.sequence
  terminal : m'.state.terminalReceipt = m.state.terminalReceipt

variable {root : LeaseIdentity} {m m' : Machine}

theorem accounts_books (m : Machine) :
    ({ m with state := m.state.books } : Machine).accounts = m.accounts := by
  funext c
  cases c with
  | none => simp only [accounts, LeaseState.books, nested_account, nestedCount_account]
  | some identity =>
    simp only [accounts, LeaseState.books, recordOf_account, nested_account, nestedCount_account]
    cases recordOf m.state.delegations identity <;> rfl

/-- Records with the same account agree on a part of it. -/
theorem account_part {old new : DelegationRecord} (heq : old.account = new.account) {β : Type}
    (g : DelegationRecord → β) (hg : ∀ record, g record.account = g record) : g old = g new := by
  rw [← hg, heq, hg]

namespace Unchanged

theorem accounts (h : Unchanged m m') : m'.accounts = m.accounts := by
  rw [← accounts_books m', ← accounts_books m, h.books]
  funext c
  cases c <;> simp only [Machine.accounts, h.held]

/-- A part of the books is unchanged. -/
theorem part (h : Unchanged m m') {β : Type} (g : LeaseState → β) (hg : ∀ s, g s.books = g s) :
    g m'.state = g m.state := by
  rw [← hg, h.books, hg]

theorem pool (h : Unchanged m m') : m'.pool = m.pool := by
  have hpool := h.part (fun s => (s.childGrantedBytes, s.childReturnedBytes, s.childPublishedBytes,
    s.publications)) fun _ => rfl
  simp only [Prod.mk.injEq] at hpool
  simp only [Machine.pool, hpool, h.held]

theorem identities_eq (h : Unchanged m m') :
    identities m'.state.delegations = identities m.state.delegations :=
  h.part (fun s => identities s.delegations) fun _ => identities_account

theorem publications_eq (h : Unchanged m m') : m'.state.publications = m.state.publications :=
  h.part LeaseState.publications fun _ => rfl

theorem metadataLimit_eq (h : Unchanged m m') : m'.state.metadataLimit = m.state.metadataLimit :=
  h.part LeaseState.metadataLimit fun _ => rfl

theorem exists_account (h : Unchanged m m') {record : DelegationRecord}
    (hrecord : record ∈ m'.state.delegations) :
    ∃ old ∈ m.state.delegations, old.account = record.account := by
  have hmem : record.account ∈ m'.state.books.delegations := List.mem_map_of_mem hrecord
  rw [h.books] at hmem
  exact List.mem_map.1 hmem

theorem exists_account' (h : Unchanged m m') {record : DelegationRecord}
    (hrecord : record ∈ m.state.delegations) :
    ∃ new ∈ m'.state.delegations, new.account = record.account := by
  have hmem : record.account ∈ m.state.books.delegations := List.mem_map_of_mem hrecord
  rw [← h.books] at hmem
  exact List.mem_map.1 hmem

theorem shape (h : Unchanged m m') (hm : Shape root m) : Shape root m' where
  rootIdentity := (h.part LeaseState.rootIdentity fun _ => rfl).trans hm.rootIdentity
  isRoot := hm.isRoot
  rootId := (h.part (fun s => s.rootId.isSome) fun _ => rfl).trans hm.rootId
  limitBytes := (h.part (fun s => s.limitBytes.isSome) fun _ => rfl).trans hm.limitBytes
  metadataLimit := h.metadataLimit_eq.trans_le hm.metadataLimit
  nodup := by
    rw [h.identities_eq]
    exact hm.nodup
  delegations_le := by
    have hlength := h.part (fun s => s.delegations.length) fun _ => List.length_map _
    rw [hlength, h.metadataLimit_eq]
    exact hm.delegations_le
  placed := by
    intro record hrecord
    obtain ⟨old, hold, heq⟩ := h.exists_account hrecord
    have hidentity := account_part heq DelegationRecord.identity fun _ => rfl
    have hparent := account_part heq DelegationRecord.parentIdentity fun _ => rfl
    obtain ⟨hchild, hsubject, hdomain, hparents⟩ := hm.placed old hold
    rw [hidentity] at hchild hsubject hdomain
    rw [hparent] at hchild hparents
    rw [h.identities_eq]
    exact ⟨hchild, hsubject, hdomain, hparents⟩
  bindings := by
    rw [h.publications_eq]
    exact hm.bindings
  publications_le := by
    rw [h.publications_eq, h.metadataLimit_eq]
    exact hm.publications_le
  registered := by
    rw [h.publications_eq, h.identities_eq]
    exact hm.registered
  owners := by
    intro lease hlease
    obtain ⟨record, hrecord, hidentity, hcapacity⟩ := hm.owners lease (h.owners hlease)
    obtain ⟨new, hnew, heq⟩ := h.exists_account' hrecord
    refine ⟨new, hnew, ?_, ?_⟩
    · exact (account_part heq DelegationRecord.identity fun _ => rfl).trans hidentity
    · exact (account_part heq DelegationRecord.capacityBytes fun _ => rfl).trans hcapacity
  charges := by
    rw [h.identities_eq]
    exact fun charge hcharge => hm.charges charge (h.charges hcharge)
  prepared := by
    rw [h.identities_eq]
    exact fun transfer htransfer => hm.prepared transfer (h.prepared htransfer)
  receipts := fun receipt hreceipt => hm.receipts receipt (h.published hreceipt)

theorem sound (h : Unchanged m m') (hm : Sound root m) : Sound root m' := by
  refine { h.shape hm.toShape with
    balanced := ?_
    pooled := ?_
    publishedBytes := ?_
    childPublishedBytes := ?_ }
  · rw [h.accounts]
    exact hm.balanced
  · rw [h.pool]
    exact hm.pooled
  · intro record hrecord
    obtain ⟨old, hold, heq⟩ := h.exists_account hrecord
    have hidentity := account_part heq DelegationRecord.identity fun _ => rfl
    have hbytes := account_part heq DelegationRecord.allocationPublishedBytes fun _ => rfl
    rw [← hbytes, hm.publishedBytes old hold, h.publications_eq]
    simp only [hidentity]
  · have hbytes := h.part LeaseState.childPublishedBytes fun _ => rfl
    rw [hbytes, hm.childPublishedBytes, h.publications_eq]

theorem sequenced (h : Unchanged m m') (hm : Sequenced m.state) : Sequenced m'.state where
  created := by
    intro record hrecord
    obtain ⟨old, hold, heq⟩ := h.exists_account hrecord
    have hcreated := account_part heq DelegationRecord.createdSequence fun _ => rfl
    rw [← hcreated]
    exact (hm.created old hold).trans h.sequence
  prepared := by
    rw [h.publications_eq]
    exact fun record hrecord => (hm.prepared record hrecord).trans h.sequence
  resolved := by
    rw [h.publications_eq]
    exact fun record hrecord q hq => (hm.resolved record hrecord q hq).trans h.sequence
  sealing := by
    intro q hq
    rcases h.sealing q hq with hold | hle
    · exact (hm.sealing q hold).trans h.sequence
    · exact hle

end Unchanged

/-- The effect of a completed action, with the facts its checks established. -/
inductive Effect (m : Machine) : Action → Machine → Prop
  | granted {what : String} {bytes : ℕ} {log : RefusalLog} (hopen : m.state.sealed = false)
      (hfits : m.state.usedBytes + bytes ≤ m.state.limitBytes.getD 0)
      (hgranted : m.state.directGrantedBytes + bytes < 2 ^ 128)
      (hlog : m.state.log.sequence ≤ log.sequence) :
      Effect m (.reserve what bytes) { m with
        state := { m.state with
          usedBytes := m.state.usedBytes + bytes
          peakBytes := max m.state.peakBytes (m.state.usedBytes + bytes)
          requestedBytes := m.state.requestedBytes + bytes
          directGrantedBytes := m.state.directGrantedBytes + bytes
          log }
        charges := ⟨none, bytes⟩ :: m.charges }
  | released {charge : LeaseCharge} {log : RefusalLog} (hcharge : charge ∈ m.charges)
      (howner : charge.owner = none) (hlog : m.state.log.sequence ≤ log.sequence) :
      Effect m (.dropCharge charge) { m with
        state := { m.state with
          usedBytes := m.state.usedBytes - charge.bytes
          directReturnedBytes := m.state.directReturnedBytes + charge.bytes
          log }
        charges := m.charges.erase charge }
  | dropped {charge : LeaseCharge} {m' : Machine} (h : Unchanged m m') :
      Effect m (.dropCharge charge) m'
  | lent {owner : Option DelegatedMemoryLease} {identity : LeaseIdentity} {logicalPath : String}
      {capacityBytes sequence : ℕ} {log : RefusalLog} {lender : Option LeaseIdentity}
      (hopen : m.state.sealed = false) (howner : lender = owner.map DelegatedMemoryLease.identity)
      (hlender : ∀ parent ∈ lender, parent ∈ identities m.state.delegations)
      (hchild : ∀ root ∈ m.state.rootIdentity,
        identity.isDirectChildOf (lender.getD root) = true)
      (hfresh : identity ∉ identities m.state.delegations)
      (hroom : m.state.delegations.length < m.state.metadataLimit)
      (henabled : (Envelope.Move.lend capacityBytes).Enabled (2 ^ 128) (m.accounts lender))
      (hcreated : sequence ≤ log.sequence) (hlog : m.state.log.sequence ≤ log.sequence) :
      Effect m (.delegateCapacity owner identity logicalPath capacityBytes) { m with
        state := { m.state with
          usedBytes := lender.elim (m.state.usedBytes + capacityBytes) fun _ => m.state.usedBytes
          peakBytes := lender.elim (max m.state.peakBytes (m.state.usedBytes + capacityBytes))
            fun _ => m.state.peakBytes
          requestedBytes := lender.elim (m.state.requestedBytes + capacityBytes)
            fun _ => m.state.requestedBytes
          delegatedBytes := lender.elim (m.state.delegatedBytes + capacityBytes)
            fun _ => m.state.delegatedBytes
          delegations := changeLender lender (DelegationRecord.lend capacityBytes) m.state.delegations ++
            [DelegationRecord.fresh lender identity
              (owner.map DelegatedMemoryLease.logicalPath) logicalPath capacityBytes sequence]
          log }
        owners := ⟨identity, logicalPath, capacityBytes⟩ :: m.owners }
  | grantedIn {owner : DelegatedMemoryLease} {site : String} {bytes : ℕ}
      {record : DelegationRecord} {log : RefusalLog} (hopen : m.state.sealed = false)
      (hrecord : recordOf m.state.delegations owner.identity = some record) (hlive : record.disposition = .live)
      (hfits : record.usedBytes + bytes ≤ record.capacityBytes)
      (hgranted : record.allocationGrantedBytes + bytes < 2 ^ 128)
      (hpooled : m.state.childGrantedBytes + bytes < 2 ^ 128)
      (hlog : m.state.log.sequence ≤ log.sequence) :
      Effect m (.reserveIn owner site bytes) { m with
        state := { m.state with
          delegations := changeRecord owner.identity (DelegationRecord.grant bytes) m.state.delegations
          childGrantedBytes := m.state.childGrantedBytes + bytes
          log }
        charges := ⟨some owner.identity, bytes⟩ :: m.charges }
  | releasedIn {charge : LeaseCharge} {identity : LeaseIdentity} {record : DelegationRecord}
      {log : RefusalLog} (hcharge : charge ∈ m.charges) (howner : charge.owner = some identity)
      (hrecord : recordOf m.state.delegations identity = some record) (hlive : record.disposition = .live)
      (hlog : m.state.log.sequence ≤ log.sequence) :
      Effect m (.dropCharge charge) { m with
        state := { m.state with
          delegations := changeRecord identity (DelegationRecord.release charge.bytes) m.state.delegations
          childReturnedBytes := m.state.childReturnedBytes + charge.bytes
          log }
        charges := m.charges.erase charge }
  | staged {charge : LeaseCharge} {record : DelegationRecord} {new : PublicationRecord}
      {log : RefusalLog} (hopen : m.state.sealed = false) (hcharge : charge ∈ m.charges)
      (howner : charge.owner = some new.childIdentity) (hbytes : charge.bytes = new.bytes)
      (hrecord : recordOf m.state.delegations new.childIdentity = some record)
      (hlive : record.disposition = .live) (hpos : 0 < new.bytes)
      (henvelope : new.envelope.totalBytes = some new.bytes)
      (hfresh : new.binding ∉ m.state.publications.map PublicationRecord.binding)
      (hroom : m.state.publications.length < m.state.metadataLimit)
      (hprepared : new.disposition = .prepared) (hresolved : new.resolvedSequence = none)
      (hsequence : new.preparedSequence ≤ log.sequence)
      (hlog : m.state.log.sequence ≤ log.sequence) :
      Effect m (.prepare charge new.binding new.envelope) { m with
        state := { m.state with publications := m.state.publications ++ [new], log }
        charges := m.charges.erase charge
        prepared := new.transfer :: m.prepared }
  | published {transfer : PreparedTransfer} {record : DelegationRecord}
      {publication : PublicationRecord} {sequence : ℕ} {receipt : PublishedTransferReceipt}
      {log : RefusalLog} (hrecord : recordOf m.state.delegations transfer.childIdentity = some record)
      (hlive : record.disposition = .live)
      (hpublication : publicationOf m.state.publications transfer = some publication)
      (hprepared : publication.disposition = .prepared)
      (hreceipt : receipt.verifyFor receipt.subject = .ok ())
      (hsequence : sequence ≤ log.sequence) (hlog : m.state.log.sequence ≤ log.sequence) :
      Effect m (.publish transfer) { m with
        state := { m.state with
          delegations := changeRecord transfer.childIdentity (DelegationRecord.publish transfer.bytes)
            m.state.delegations
          publications := changePublication transfer (PublicationRecord.publish sequence receipt.receiptRoot)
            m.state.publications
          childPublishedBytes := m.state.childPublishedBytes + transfer.bytes
          log }
        prepared := m.prepared.erase transfer
        published := receipt :: m.published }
  | rolledBack {transfer : PreparedTransfer} {record : DelegationRecord}
      {publication : PublicationRecord} {sequence : ℕ} {implicitRollback : Bool}
      {log : RefusalLog} (hrecord : recordOf m.state.delegations transfer.childIdentity = some record)
      (hlive : record.disposition = .live)
      (hpublication : publicationOf m.state.publications transfer = some publication)
      (hprepared : publication.disposition = .prepared)
      (hsequence : sequence ≤ log.sequence) (hlog : m.state.log.sequence ≤ log.sequence) :
      Effect m (.rollback transfer implicitRollback) { m with
        state := { m.state with
          delegations := changeRecord transfer.childIdentity (DelegationRecord.release transfer.bytes)
            m.state.delegations
          publications := changePublication transfer (PublicationRecord.rollBack sequence implicitRollback)
            m.state.publications
          childReturnedBytes := m.state.childReturnedBytes + transfer.bytes
          log }
        prepared := m.prepared.erase transfer }
  | destinationClosed {published : PublishedTransferReceipt} {implicitClose : Bool}
      {sequence : ℕ} {closeRoot : Digest} {log : RefusalLog}
      (hlog : m.state.log.sequence ≤ log.sequence) :
      Effect m (.closePublished published implicitClose) { m with
        state := { m.state with
          publications := changePublication published.transfer
            (PublicationRecord.closeDestination sequence implicitClose closeRoot) m.state.publications
          log }
        published := m.published.erase published }
  | returned {owner : DelegatedMemoryLease} {implicitReturn : Bool} {record : DelegationRecord}
      {sequence : ℕ} {closeRoot : Digest} {log : RefusalLog}
      (hrecord : recordOf m.state.delegations owner.identity = some record)
      (hlive : record.disposition = .live) (hused : record.usedBytes = 0)
      (hchildren : record.liveChildren = 0) (hlog : m.state.log.sequence ≤ log.sequence) :
      Effect m (.closeOwner owner implicitReturn) { m with
        state := { m.state with
          usedBytes := record.parentIdentity.elim (m.state.usedBytes - record.capacityBytes)
            fun _ => m.state.usedBytes
          returnedDelegatedBytes :=
            record.parentIdentity.elim (m.state.returnedDelegatedBytes + record.capacityBytes)
              fun _ => m.state.returnedDelegatedBytes
          delegations := changeRecord owner.identity (DelegationRecord.close sequence implicitReturn closeRoot)
            (changeLender record.parentIdentity (DelegationRecord.reclaim record.capacityBytes)
              m.state.delegations)
          publications := LeaseState.sortPublications m.state.publications
          log }
        owners := m.owners.erase owner }
  | closed {sealSequence : ℕ} {receipt : SealedLeaseReceipt} {log : RefusalLog}
      (hterminal : m.state.terminalReceipt = none) (hsequence : sealSequence ≤ log.sequence)
      (hlog : m.state.log.sequence ≤ log.sequence) :
      Effect m .sealRoot { m with
        state := { m.state with
          sealed := true
          sealSequence := some sealSequence
          delegations := LeaseState.sortDelegations m.state.delegations
          publications := LeaseState.sortPublications m.state.publications
          terminalReceipt := some receipt
          log } }
  | terminal {receipt : SealedLeaseReceipt} (hterminal : m.state.terminalReceipt = some receipt) :
      Effect m .sealRoot m

end Machine

end FrankenSim.Lease
