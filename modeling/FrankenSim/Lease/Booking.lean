import FrankenSim.Lease.Effects

/-!
# Every effect keeps the machine sound

An effect on one account is a move of its envelope, and of the pool of child
totals. A delegation is a loan of its lender and a fresh envelope; the return of a
child is a reclaim of its lender and the close of its envelope.
-/
namespace FrankenSim.Lease

open Library

namespace Machine

variable {root : LeaseIdentity} {m m' : Machine}

/-! ### Sums over charges and publications -/

@[simp] theorem held_cons {charge : LeaseCharge} {charges : List LeaseCharge}
    (p : Option LeaseIdentity → Prop) [DecidablePred p] :
    held (charge :: charges) p = (if p charge.owner then charge.bytes else 0) + held charges p :=
  totalWhere_cons charge

theorem held_erase {charge : LeaseCharge} {charges : List LeaseCharge} (hcharge : charge ∈ charges)
    (p : Option LeaseIdentity → Prop) [DecidablePred p] :
    (if p charge.owner then charge.bytes else 0) + held (charges.erase charge) p =
      held charges p :=
  totalWhere_erase (p := fun charge : LeaseCharge => p charge.owner) (g := LeaseCharge.bytes)
    hcharge

theorem bytes_le_held {charge : LeaseCharge} {charges : List LeaseCharge}
    (hcharge : charge ∈ charges) (p : Option LeaseIdentity → Prop) [DecidablePred p]
    (hp : p charge.owner) : charge.bytes ≤ held charges p :=
  le_totalWhere (p := fun charge : LeaseCharge => p charge.owner) hcharge hp

@[simp] theorem transferred_append {records : List PublicationRecord} {new : PublicationRecord}
    (disposition : PublicationDisposition) (p : LeaseIdentity → Prop) [DecidablePred p] :
    transferred (records ++ [new]) disposition p = transferred records disposition p +
      if new.disposition = disposition ∧ p new.childIdentity then new.bytes else 0 := by
  simp [transferred]

theorem Shape.nodup_transfers (h : Shape root m) :
    (m.state.publications.map PublicationRecord.transfer).Nodup := by
  have hmap : m.state.publications.map PublicationRecord.binding =
      (m.state.publications.map PublicationRecord.transfer).map PreparedTransfer.binding := by
    rw [List.map_map]
    rfl
  have hnodup := h.bindings
  rw [hmap] at hnodup
  exact hnodup.of_map

section Resolution

variable {transfer : PreparedTransfer} {publication : PublicationRecord}
  {f : PublicationRecord → PublicationRecord}

/-- The resolution of a publication moves its bytes between two dispositions. -/
theorem transferred_change (h : Shape root m)
    (hpublication : publicationOf m.state.publications transfer = some publication)
    (hf : ∀ record, (f record).transfer = record.transfer)
    (disposition : PublicationDisposition) (p : LeaseIdentity → Prop) [DecidablePred p] :
    transferred (changePublication transfer f m.state.publications) disposition p +
        (if publication.disposition = disposition ∧ p transfer.childIdentity then transfer.bytes
          else 0) =
      transferred m.state.publications disposition p +
        if (f publication).disposition = disposition ∧ p transfer.childIdentity then transfer.bytes
        else 0 := by
  obtain ⟨hmem, rfl⟩ := mem_of_lookup hpublication
  have hsum := totalWhere_modifyKey (f := f) (g := PublicationRecord.bytes)
    (p := fun record => record.disposition = disposition ∧ p record.childIdentity)
    h.nodup_transfers hmem
  have hbytes : (f publication).bytes = publication.bytes :=
    congrArg PreparedTransfer.bytes (hf publication)
  have hchild : (f publication).childIdentity = publication.childIdentity :=
    congrArg PreparedTransfer.childIdentity (hf publication)
  rw [hbytes, hchild] at hsum
  exact hsum

theorem prepared_change (h : Shape root m)
    (hpublication : publicationOf m.state.publications transfer = some publication)
    (hprepared : publication.disposition = .prepared)
    (hf : ∀ record, (f record).transfer = record.transfer)
    (hnew : (f publication).disposition ≠ .prepared) (p : LeaseIdentity → Prop) [DecidablePred p] :
    transferred (changePublication transfer f m.state.publications) .prepared p +
        (if p transfer.childIdentity then transfer.bytes else 0) =
      transferred m.state.publications .prepared p := by
  have hsum := transferred_change h hpublication hf .prepared p
  simpa [hprepared, hnew] using hsum

theorem published_change (h : Shape root m)
    (hpublication : publicationOf m.state.publications transfer = some publication)
    (hprepared : publication.disposition = .prepared)
    (hf : ∀ record, (f record).transfer = record.transfer) (p : LeaseIdentity → Prop)
    [DecidablePred p] :
    transferred (changePublication transfer f m.state.publications) .published p =
      transferred m.state.publications .published p +
        if (f publication).disposition = .published ∧ p transfer.childIdentity then transfer.bytes
        else 0 := by
  have hsum := transferred_change h hpublication hf .published p
  simpa [hprepared] using hsum

/-- A prepared publication holds its bytes in its child and in the pool. -/
theorem staged_le
    (hpublication : publicationOf m.state.publications transfer = some publication)
    (hprepared : publication.disposition = .prepared) (p : LeaseIdentity → Prop) [DecidablePred p]
    (hp : p transfer.childIdentity) :
    transfer.bytes ≤ transferred m.state.publications .prepared p := by
  obtain ⟨hmem, rfl⟩ := mem_of_lookup hpublication
  exact le_totalWhere (g := PublicationRecord.bytes)
    (p := fun record => record.disposition = .prepared ∧ p record.childIdentity) hmem
    ⟨hprepared, hp⟩

end Resolution

/-! ### Moves of one envelope -/

/-- The parts of the state that the root envelope reads. -/
def rootBooks (s : LeaseState) : Option ℕ × ℕ × ℕ × ℕ × ℕ × ℕ × ℕ :=
  (s.limitBytes, s.usedBytes, s.peakBytes, s.directGrantedBytes, s.directReturnedBytes,
    s.delegatedBytes, s.returnedDelegatedBytes)

/-- An effect on one child is a move of its envelope. -/
theorem accounts_flow {identity : LeaseIdentity} {record : DelegationRecord}
    {f : DelegationRecord → DelegationRecord} {move : Flow.Move}
    (hrecord : recordOf m.state.delegations identity = some record)
    (hdelegations : m'.state.delegations = changeRecord identity f m.state.delegations)
    (hidentity : ∀ record, (f record).identity = record.identity)
    (hplace : ∀ record, (f record).place = record.place)
    (hroot : rootBooks m'.state = rootBooks m.state)
    (hheld : ∀ owner, owner ≠ some identity → held m'.charges (· = owner) = held m.charges (· = owner))
    (hstaged : ∀ j, j ≠ identity → transferred m'.state.publications .prepared (· = j) =
      transferred m.state.publications .prepared (· = j))
    (hself : ∀ nested count,
      (f record).envelope (held m'.charges (· = some identity))
          (transferred m'.state.publications .prepared (· = identity)) nested count =
        (Envelope.Move.flow move).apply (record.envelope (held m.charges (· = some identity))
          (transferred m.state.publications .prepared (· = identity)) nested count)) :
    m'.accounts = m.accounts.move (some identity) (.flow move) := by
  have hnested : ∀ lender,
      nested (changeRecord identity f m.state.delegations) lender =
          nested m.state.delegations lender ∧
        nestedCount (changeRecord identity f m.state.delegations) lender =
          nestedCount m.state.delegations lender :=
    nested_changeRecord f hplace
  apply Ledger.eq_move
  · have hnew : recordOf m'.state.delegations identity = some (f record) := by
      rw [hdelegations, recordOf_changeRecord f hidentity, if_pos rfl, hrecord]
      rfl
    rw [accounts_some hrecord, accounts_some hnew, hdelegations, (hnested _).1, (hnested _).2]
    exact hself _ _
  · intro c hc
    cases c with
    | none =>
      simp only [rootBooks, Prod.mk.injEq] at hroot
      simp only [accounts, hroot, hdelegations, (hnested _).1, (hnested _).2, hheld none hc]
    | some j =>
      have hj : j ≠ identity := fun h => hc (congrArg some h)
      have hsame : recordOf (changeRecord identity f m.state.delegations) j =
          recordOf m.state.delegations j := by
        rw [recordOf_changeRecord f hidentity, if_neg hj]
      simp only [accounts, hdelegations, hsame, (hnested _).1, (hnested _).2,
        hheld _ (fun h => hj (Option.some.inj h)), hstaged j hj]

/-- A live record has an open envelope. -/
theorem Sound.envelope (h : Sound root m) {identity : LeaseIdentity} {record : DelegationRecord}
    (hrecord : recordOf m.state.delegations identity = some record) :
    (record.envelope (held m.charges (· = some identity)) (transferred m.state.publications .prepared (· = identity))
      (nested m.state.delegations (some identity)) (nestedCount m.state.delegations (some identity))).Balanced
        (2 ^ 128) := by
  have hbalanced := h.balanced (some identity)
  rwa [accounts_some hrecord] at hbalanced

/-- What the balance of a child says about its record. -/
theorem Sound.record_eqs (h : Sound root m) {identity : LeaseIdentity} {record : DelegationRecord}
    (hrecord : recordOf m.state.delegations identity = some record) :
    record.usedBytes = held m.charges (· = some identity) +
        transferred m.state.publications .prepared (· = identity) + nested m.state.delegations (some identity) ∧
      record.allocationGrantedBytes = record.allocationReturnedBytes +
        record.allocationPublishedBytes + held m.charges (· = some identity) +
        transferred m.state.publications .prepared (· = identity) ∧
      record.allocationGrantedBytes < 2 ^ 128 ∧ record.usedBytes ≤ record.peakUsedBytes ∧
      record.peakUsedBytes ≤ record.capacityBytes := by
  have hbalanced := h.envelope hrecord
  exact ⟨hbalanced.used_eq, hbalanced.flow.granted_eq, hbalanced.flow.granted_lt,
    hbalanced.used_le_peak, hbalanced.peak_le_limit⟩

/-- A flow inside a live child keeps every account balanced when it is enabled. -/
theorem Sound.balanced_flow (h : Sound root m) {identity : LeaseIdentity}
    {record : DelegationRecord} (move : Flow.Move)
    (hrecord : recordOf m.state.delegations identity = some record) (hlive : record.disposition = .live)
    (haccounts : m'.accounts = m.accounts.move (some identity) (.flow move))
    (henabled : move.Enabled (2 ^ 128) ⟨record.allocationGrantedBytes,
      record.allocationReturnedBytes, record.allocationPublishedBytes, held m.charges (· = some identity),
      transferred m.state.publications .prepared (· = identity)⟩)
    (hfits : Envelope.occupied record.usedBytes move ≤ record.capacityBytes) :
    m'.accounts.Balanced (2 ^ 128) := by
  rw [haccounts]
  apply h.balanced.move
  rw [accounts_some hrecord]
  refine ⟨?_, henabled, hfits⟩
  simp [DelegationRecord.envelope, hlive]

theorem Sound.balanced_root (h : Sound root m) (move : Flow.Move)
    (hself : m'.accounts none = (Envelope.Move.flow move).apply (m.accounts none))
    (hother : ∀ j, m'.accounts (some j) = m.accounts (some j))
    (henabled : (Envelope.Move.flow move).Enabled (2 ^ 128) (m.accounts none)) :
    m'.accounts.Balanced (2 ^ 128) := by
  have haccounts : m'.accounts = m.accounts.move none (.flow move) := by
    apply Ledger.eq_move hself
    intro c hc
    cases c with
    | none => exact absurd rfl hc
    | some j => exact hother j
  rw [haccounts]
  exact h.balanced.move henabled

theorem Sound.pooled_flow (h : Sound root m) (move : Flow.Move) (hpool : m'.pool = move.apply m.pool)
    (henabled : move.Enabled (2 ^ 128) m.pool) : m'.pool.Conserved (2 ^ 128) := by
  rw [hpool]
  exact h.pooled.apply henabled

theorem Sound.publishedBytes_changeRecord (h : Sound root m) (identity : LeaseIdentity)
    (f : DelegationRecord → DelegationRecord)
    (hf : ∀ record, (f record).identity = record.identity ∧
      (f record).allocationPublishedBytes = record.allocationPublishedBytes) :
    ∀ record ∈ changeRecord identity f m.state.delegations,
      record.allocationPublishedBytes =
        transferred m.state.publications .published (· = record.identity) := by
  intro record hrecord
  obtain ⟨old, hold, rfl⟩ := mem_modifyKey.1 hrecord
  by_cases hk : old.identity = identity
  · simp only [if_pos hk, hf old]
    exact h.publishedBytes old hold
  · simp only [if_neg hk]
    exact h.publishedBytes old hold

theorem Sound.publishedBytes_changeLender (h : Sound root m) (lender : Option LeaseIdentity)
    (f : DelegationRecord → DelegationRecord)
    (hf : ∀ record, (f record).identity = record.identity ∧
      (f record).allocationPublishedBytes = record.allocationPublishedBytes) :
    ∀ record ∈ changeLender lender f m.state.delegations,
      record.allocationPublishedBytes =
        transferred m.state.publications .published (· = record.identity) := by
  cases lender with
  | none => exact h.publishedBytes
  | some identity => exact h.publishedBytes_changeRecord identity f hf

/-- What the balance of the root says. -/
theorem Sound.root_eqs (h : Sound root m) :
    m.state.usedBytes = held m.charges (· = none) + nested m.state.delegations none ∧
      m.state.directGrantedBytes = m.state.directReturnedBytes + held m.charges (· = none) ∧
      m.state.directGrantedBytes < 2 ^ 128 ∧ m.state.usedBytes ≤ m.state.peakBytes ∧
      m.state.peakBytes ≤ m.state.limitBytes.getD 0 := by
  have hbalanced := h.balanced none
  refine ⟨?_, ?_, hbalanced.flow.granted_lt, hbalanced.used_le_peak, hbalanced.peak_le_limit⟩
  · simpa [accounts] using hbalanced.used_eq
  · simpa [accounts] using hbalanced.flow.granted_eq

/-! ### Charges -/

theorem Sound.reserve (h : Sound root m) {what : String} {bytes : ℕ}
    (he : Effect m (.reserve what bytes) m') : Sound root m' := by
  cases he with
  | granted hopen hfits hgranted hlog =>
    refine { h with charges := ?_, balanced := ?_, pooled := ?_ }
    · intro charge hcharge identity hidentity
      rcases List.mem_cons.1 hcharge with rfl | hcharge
      · cases hidentity
      · exact h.charges charge hcharge identity hidentity
    · apply h.balanced_root (.grant bytes)
      · ext <;> simp [accounts, Envelope.Move.apply, Envelope.occupied, Flow.Move.apply]
        omega
      · intro j
        simp [accounts]
      · exact ⟨rfl, hgranted, hfits⟩
    · have hpool := h.pooled
      simpa [pool] using hpool

theorem Sound.dropCharge (h : Sound root m) {charge : LeaseCharge}
    (he : Effect m (.dropCharge charge) m') : Sound root m' := by
  cases he with
  | released hcharge howner hlog =>
    have hheld := held_erase hcharge (· = none)
    have hother := fun j => held_erase hcharge (· = some j)
    have hsome := held_erase hcharge (·.isSome)
    simp only [howner, if_true, Option.isSome_none, Bool.false_eq_true, reduceCtorEq, if_false,
      zero_add] at hheld hother hsome
    obtain ⟨hused, hgranted, hlt, hpeak, hlimit⟩ := h.root_eqs
    refine { h with charges := ?_, balanced := ?_, pooled := ?_ }
    · exact fun charge hcharge => h.charges charge (List.mem_of_mem_erase hcharge)
    · apply h.balanced_root (.release charge.bytes)
      · ext <;> simp [accounts, Envelope.Move.apply, Envelope.occupied, Flow.Move.apply]
        · omega
        · omega
      · intro j
        simp [accounts, hother]
      · refine ⟨rfl, ?_, ?_⟩
        · simp only [Flow.Move.Enabled, accounts]
          omega
        · simp only [Envelope.occupied, accounts]
          omega
    · have hpool := h.pooled
      simpa [pool, hsome] using hpool
  | dropped hunchanged => exact hunchanged.sound h
  | @releasedIn _ identity record log hcharge howner hrecord hlive hlog =>
    have hheld := fun owner => held_erase hcharge (· = owner)
    have hsome := held_erase hcharge (·.isSome)
    have hself := hheld (some identity)
    simp only [howner, if_true, Option.isSome_some] at hself hsome
    obtain ⟨hused, hgranted, hlt, hpeak, hcapacity⟩ := h.record_eqs hrecord
    have hpooled := h.pooled.granted_eq
    simp only [pool] at hpooled
    have hshape := h.changeRecord identity (DelegationRecord.release charge.bytes) fun _ => rfl
    refine { hshape with
      charges := ?_
      balanced := ?_
      pooled := ?_
      publishedBytes := h.publishedBytes_changeRecord _ _ fun _ => ⟨rfl, rfl⟩
      childPublishedBytes := h.childPublishedBytes }
    · exact fun charge hcharge => hshape.charges charge (List.mem_of_mem_erase hcharge)
    · apply h.balanced_flow (.release charge.bytes) hrecord hlive
      · refine accounts_flow hrecord rfl (fun _ => rfl) (fun _ => rfl) rfl ?_ (fun _ _ => rfl) ?_
        · intro owner howner'
          have hother := hheld owner
          rwa [howner, if_neg (Ne.symm howner'), zero_add] at hother
        · intro nested count
          ext <;> simp [DelegationRecord.envelope, DelegationRecord.release,
            Envelope.Move.apply, Envelope.occupied, Flow.Move.apply]
          · omega
          · omega
          · rfl
      · simp only [Flow.Move.Enabled]
        omega
      · simp only [Envelope.occupied]
        omega
    · apply h.pooled_flow (.release charge.bytes)
      · ext <;> simp [pool, Flow.Move.apply]
        omega
      · simp only [Flow.Move.Enabled, pool]
        omega

theorem Sound.reserveIn (h : Sound root m) {owner : DelegatedMemoryLease} {site : String}
    {bytes : ℕ} (he : Effect m (.reserveIn owner site bytes) m') : Sound root m' := by
  cases he with
  | @grantedIn _ _ _ record log hopen hrecord hlive hfits hgranted hpooled hlog =>
    have hshape := h.changeRecord owner.identity (DelegationRecord.grant bytes) fun _ => rfl
    refine { hshape with
      charges := ?_
      balanced := ?_
      pooled := ?_
      publishedBytes := h.publishedBytes_changeRecord _ _ fun _ => ⟨rfl, rfl⟩
      childPublishedBytes := h.childPublishedBytes }
    · intro charge hcharge identity hidentity
      rcases List.mem_cons.1 hcharge with rfl | hcharge
      · cases hidentity
        exact mem_identities_changeRecord (DelegationRecord.grant bytes) (fun _ => rfl) (mem_identities hrecord)
      · exact hshape.charges charge hcharge identity hidentity
    · apply h.balanced_flow (.grant bytes) hrecord hlive
      · refine accounts_flow hrecord rfl (fun _ => rfl) (fun _ => rfl) rfl ?_ (fun _ _ => rfl) ?_
        · intro other hother
          rw [held_cons, if_neg (Ne.symm hother), zero_add]
        · intro nested count
          ext <;> simp [DelegationRecord.envelope, DelegationRecord.grant, Envelope.Move.apply,
            Envelope.occupied, Flow.Move.apply]
          · omega
          · rfl
      · exact hgranted
      · exact hfits
    · apply h.pooled_flow (.grant bytes)
      · ext <;> simp [pool, Flow.Move.apply]
        omega
      · exact hpooled

/-! ### Publications -/

theorem Sound.prepare (h : Sound root m) {charge : LeaseCharge}
    {binding : PublishedTransferBinding} {envelope : PublishedTransferEnvelope}
    (he : Effect m (.prepare charge binding envelope) m') : Sound root m' := by
  cases he with
  | @staged _ record new log hopen hcharge howner hbytes hrecord hlive hpos henvelope hfresh hroom
      hprepared hresolved hsequence hlog =>
    have hheld := fun owner => held_erase hcharge (· = owner)
    have hsome := held_erase hcharge (·.isSome)
    have hself := hheld (some new.childIdentity)
    simp only [howner, if_true, Option.isSome_some] at hself hsome
    obtain ⟨hused, hgranted, hlt, hpeak, hcapacity⟩ := h.record_eqs hrecord
    have hpooled := h.pooled.granted_eq
    simp only [pool] at hpooled
    have hchild := mem_identities hrecord
    have hid : changeRecord new.childIdentity id m.state.delegations = m.state.delegations := by
      simp [changeRecord, modifyKey]
    refine { h with
      bindings := ?_
      publications_le := ?_
      registered := ?_
      charges := ?_
      prepared := ?_
      balanced := ?_
      pooled := ?_
      publishedBytes := ?_
      childPublishedBytes := ?_ }
    · rw [List.map_append, List.nodup_append]
      refine ⟨h.bindings, List.nodup_singleton _, ?_⟩
      intro a ha b hb hab
      rw [List.map_singleton, List.mem_singleton] at hb
      exact hfresh (hb ▸ hab ▸ ha)
    · rw [List.length_append, List.length_singleton]
      exact hroom
    · intro record hrecord
      rcases List.mem_append.1 hrecord with hrecord | hrecord
      · exact h.registered record hrecord
      · rw [List.mem_singleton.1 hrecord]
        exact ⟨hpos, henvelope, hchild⟩
    · exact fun charge hcharge => h.charges charge (List.mem_of_mem_erase hcharge)
    · intro transfer htransfer
      rcases List.mem_cons.1 htransfer with rfl | htransfer
      · exact hchild
      · exact h.prepared transfer htransfer
    · apply h.balanced_flow (.stage new.bytes) hrecord hlive
      · refine accounts_flow (f := id) hrecord hid.symm (fun _ => rfl) (fun _ => rfl) rfl ?_ ?_ ?_
        · intro owner howner'
          have hother := hheld owner
          rwa [howner, if_neg (Ne.symm howner'), zero_add] at hother
        · intro j hj
          rw [transferred_append, if_neg fun hnew => hj hnew.2.symm, add_zero]
        · intro nested count
          ext <;> simp [DelegationRecord.envelope, Envelope.Move.apply, Envelope.occupied,
            Flow.Move.apply, hprepared]
          · omega
          · omega
      · simp only [Flow.Move.Enabled]
        omega
      · simp only [Envelope.occupied]
        omega
    · apply h.pooled_flow (.stage new.bytes)
      · ext <;> simp [pool, Flow.Move.apply, hprepared]
        omega
      · simp only [Flow.Move.Enabled, pool]
        omega
    · intro record hrecord
      rw [transferred_append, if_neg (by simp [hprepared]), add_zero]
      exact h.publishedBytes record hrecord
    · rw [transferred_append, if_neg (by simp [hprepared]), add_zero]
      exact h.childPublishedBytes

theorem Sound.publish (h : Sound root m) {transfer : PreparedTransfer}
    (he : Effect m (.publish transfer) m') : Sound root m' := by
  cases he with
  | @published _ record publication sequence receipt log hrecord hlive hpublication hprepared
      hreceipt hsequence hlog =>
    have hstaged := fun (p : LeaseIdentity → Prop) [DecidablePred p] =>
      prepared_change h.toShape (f := (PublicationRecord.publish sequence receipt.receiptRoot)) hpublication
        hprepared (fun _ => rfl) (by simp [PublicationRecord.publish]) p
    have hpublished := fun (p : LeaseIdentity → Prop) [DecidablePred p] =>
      published_change h.toShape (f := (PublicationRecord.publish sequence receipt.receiptRoot)) hpublication
        hprepared (fun _ => rfl) p
    have hself := hstaged (· = transfer.childIdentity)
    have htotal := hstaged fun _ => True
    simp only [if_true] at hself htotal
    have hle := staged_le hpublication hprepared (· = transfer.childIdentity) rfl
    obtain ⟨hused, hgranted, hlt, hpeak, hcapacity⟩ := h.record_eqs hrecord
    have hpooled := h.pooled.granted_eq
    simp only [pool] at hpooled
    have hshape := (h.changeRecord transfer.childIdentity (DelegationRecord.publish transfer.bytes)
      fun _ => rfl).changePublication transfer (PublicationRecord.publish sequence receipt.receiptRoot) fun _ => rfl
    refine { hshape with
      prepared := ?_
      receipts := ?_
      balanced := ?_
      pooled := ?_
      publishedBytes := ?_
      childPublishedBytes := ?_ }
    · exact fun other hother => hshape.prepared other (List.mem_of_mem_erase hother)
    · intro other hother
      rcases List.mem_cons.1 hother with rfl | hother
      · exact hreceipt
      · exact h.receipts other hother
    · apply h.balanced_flow (.publish transfer.bytes) hrecord hlive
      · refine accounts_flow hrecord rfl (fun _ => rfl) (fun _ => rfl) rfl (fun _ _ => rfl) ?_ ?_
        · intro j hj
          have hother := hstaged (· = j)
          rwa [if_neg (Ne.symm hj), add_zero] at hother
        · intro nested count
          ext <;> simp [DelegationRecord.envelope, DelegationRecord.publish,
            Envelope.Move.apply, Envelope.occupied, Flow.Move.apply]
          · omega
          · omega
          · rfl
      · simp only [Flow.Move.Enabled]
        omega
      · simp only [Envelope.occupied]
        omega
    · apply h.pooled_flow (.publish transfer.bytes)
      · ext <;> simp [pool, Flow.Move.apply]
        omega
      · simp only [Flow.Move.Enabled, pool]
        omega
    · intro other hother
      obtain ⟨old, hold, rfl⟩ := mem_modifyKey.1 hother
      have hbytes := h.publishedBytes old hold
      have hnew := hpublished (· = old.identity)
      by_cases hk : old.identity = transfer.childIdentity
      · simp only [if_pos hk]
        rw [if_pos ⟨rfl, hk.symm⟩] at hnew
        exact (congrArg (· + transfer.bytes) hbytes).trans hnew.symm
      · simp only [if_neg hk]
        rw [if_neg fun hsame => hk hsame.2.symm, add_zero] at hnew
        exact hbytes.trans hnew.symm
    · have hnew := hpublished fun _ => True
      rw [if_pos ⟨rfl, trivial⟩] at hnew
      exact (congrArg (· + transfer.bytes) h.childPublishedBytes).trans hnew.symm

theorem Sound.rollback (h : Sound root m) {transfer : PreparedTransfer} {implicitRollback : Bool}
    (he : Effect m (.rollback transfer implicitRollback) m') : Sound root m' := by
  cases he with
  | @rolledBack _ record publication sequence _ log hrecord hlive hpublication hprepared hsequence
      hlog =>
    have hstaged := fun (p : LeaseIdentity → Prop) [DecidablePred p] =>
      prepared_change h.toShape (f := (PublicationRecord.rollBack sequence implicitRollback)) hpublication
        hprepared (fun _ => rfl) (by simp [PublicationRecord.rollBack]) p
    have hpublished : ∀ (p : LeaseIdentity → Prop) [DecidablePred p],
        transferred (changePublication transfer (PublicationRecord.rollBack sequence implicitRollback)
          m.state.publications) .published p = transferred m.state.publications .published p := by
      intro p _
      have hsum := published_change h.toShape (f := (PublicationRecord.rollBack sequence implicitRollback))
        hpublication hprepared (fun _ => rfl) p
      simpa [PublicationRecord.rollBack] using hsum
    have hself := hstaged (· = transfer.childIdentity)
    have htotal := hstaged fun _ => True
    simp only [if_true] at hself htotal
    have hle := staged_le hpublication hprepared (· = transfer.childIdentity) rfl
    obtain ⟨hused, hgranted, hlt, hpeak, hcapacity⟩ := h.record_eqs hrecord
    have hpooled := h.pooled.granted_eq
    simp only [pool] at hpooled
    have hshape := (h.changeRecord transfer.childIdentity (DelegationRecord.release transfer.bytes)
      fun _ => rfl).changePublication transfer (PublicationRecord.rollBack sequence implicitRollback) fun _ => rfl
    refine { hshape with
      prepared := ?_
      balanced := ?_
      pooled := ?_
      publishedBytes := ?_
      childPublishedBytes := ?_ }
    · exact fun other hother => hshape.prepared other (List.mem_of_mem_erase hother)
    · apply h.balanced_flow (.unstage transfer.bytes) hrecord hlive
      · refine accounts_flow hrecord rfl (fun _ => rfl) (fun _ => rfl) rfl (fun _ _ => rfl) ?_ ?_
        · intro j hj
          have hother := hstaged (· = j)
          rwa [if_neg (Ne.symm hj), add_zero] at hother
        · intro nested count
          ext <;> simp [DelegationRecord.envelope, DelegationRecord.release,
            Envelope.Move.apply, Envelope.occupied, Flow.Move.apply]
          · omega
          · omega
          · rfl
      · simp only [Flow.Move.Enabled]
        omega
      · simp only [Envelope.occupied]
        omega
    · apply h.pooled_flow (.unstage transfer.bytes)
      · ext <;> simp [pool, Flow.Move.apply]
        omega
      · simp only [Flow.Move.Enabled, pool]
        omega
    · intro other hother
      rw [hpublished]
      exact h.publishedBytes_changeRecord _ (DelegationRecord.release transfer.bytes) (fun _ => ⟨rfl, rfl⟩) other hother
    · rw [hpublished]
      exact h.childPublishedBytes

theorem Sound.closePublished (h : Sound root m) {published : PublishedTransferReceipt}
    {implicitClose : Bool} (he : Effect m (.closePublished published implicitClose) m') :
    Sound root m' := by
  cases he with
  | @destinationClosed _ _ sequence closeRoot log hlog =>
    have hshape := h.changePublication published.transfer
      (PublicationRecord.closeDestination sequence implicitClose closeRoot) fun _ => rfl
    have htransferred : ∀ (disposition : PublicationDisposition) (p : LeaseIdentity → Prop)
        [DecidablePred p], transferred (changePublication published.transfer
          (PublicationRecord.closeDestination sequence implicitClose closeRoot) m.state.publications) disposition p =
          transferred m.state.publications disposition p := by
      intro disposition p _
      refine totalWhere_congr (fun record : PublicationRecord => (record.disposition,
        record.childIdentity, record.bytes)) (fun place => place.1 = disposition ∧ p place.2.1) (fun place => place.2.2)
        (fun _ => Iff.rfl) (fun _ => rfl) ?_
      exact map_modifyKey fun _ _ _ => rfl
    refine { hshape with
      receipts := ?_
      balanced := ?_
      pooled := ?_
      publishedBytes := ?_
      childPublishedBytes := ?_ }
    · exact fun other hother => h.receipts other (List.mem_of_mem_erase hother)
    · intro c
      have hc := h.balanced c
      cases c with
      | none => exact hc
      | some j =>
        simp only [accounts, htransferred] at hc ⊢
        exact hc
    · have hpool := h.pooled
      simp only [pool, htransferred] at hpool ⊢
      exact hpool
    · intro record hrecord
      rw [htransferred]
      exact h.publishedBytes record hrecord
    · rw [htransferred]
      exact h.childPublishedBytes

/-! ### Loans -/

/-- A direct child of a lender shares the subject and the domain of the root. -/
theorem Shape.subjects (h : Shape root m) {lender : Option LeaseIdentity} {identity : LeaseIdentity}
    (hlender : ∀ parent ∈ lender, parent ∈ identities m.state.delegations)
    (hchild : identity.isDirectChildOf (lender.getD root) = true) :
    identity.rootSubject = root.rootSubject ∧ identity.domain = root.domain := by
  obtain ⟨hsubject, hdomain⟩ := LeaseIdentity.isDirectChildOf_subjects hchild
  cases lender with
  | none => exact ⟨hsubject, hdomain⟩
  | some parent =>
    obtain ⟨record, -, hmem, rfl⟩ := exists_record (hlender parent rfl)
    have hplaced := h.placed record hmem
    exact ⟨hsubject.trans hplaced.rootSubject, hdomain.trans hplaced.domain⟩

/-- Nothing is held, staged or lent under an identity without a record. -/
theorem Shape.unused (h : Shape root m) {identity : LeaseIdentity}
    (hfresh : identity ∉ identities m.state.delegations) :
    held m.charges (· = some identity) = 0 ∧
      transferred m.state.publications .prepared (· = identity) = 0 ∧
      nested m.state.delegations (some identity) = 0 ∧
      nestedCount m.state.delegations (some identity) = 0 := by
  have hrecords : ∀ record ∈ m.state.delegations, record.parentIdentity ≠ some identity :=
    fun record hrecord hparent => hfresh ((h.placed record hrecord).parent identity hparent)
  refine ⟨totalWhere_eq_zero.2 ?_, totalWhere_eq_zero.2 ?_, totalWhere_eq_zero.2 ?_,
    totalWhere_eq_zero.2 ?_⟩
  · exact fun charge hcharge howner => absurd (h.charges charge hcharge identity howner) hfresh
  · intro record hrecord hchild
    have hmem := (h.registered record hrecord).child
    rw [hchild.2] at hmem
    exact absurd hmem hfresh
  · exact fun record hrecord hlent => absurd hlent.2 (hrecords record hrecord)
  · exact fun record hrecord hlent => absurd hlent.2 (hrecords record hrecord)

theorem Shape.unpublished (h : Shape root m) {identity : LeaseIdentity}
    (hfresh : identity ∉ identities m.state.delegations) :
    transferred m.state.publications .published (· = identity) = 0 := by
  refine totalWhere_eq_zero.2 ?_
  intro record hrecord hchild
  have hmem := (h.registered record hrecord).child
  rw [hchild.2] at hmem
  exact absurd hmem hfresh

theorem accounts_lent (h : Shape root m) {new : DelegationRecord} {lender : Option LeaseIdentity}
    {bytes requestedBytes : ℕ} {owners : List DelegatedMemoryLease} {log : RefusalLog}
    (hlender : ∀ parent ∈ lender, parent ∈ identities m.state.delegations)
    (hfresh : new.identity ∉ identities m.state.delegations)
    (hplace : new.place = (.live, lender, bytes))
    (hblank : new.envelope 0 0 0 0 = Envelope.fresh bytes) :
    ({ m with
        state := { m.state with
          usedBytes := lender.elim (m.state.usedBytes + bytes) fun _ => m.state.usedBytes
          peakBytes := lender.elim (max m.state.peakBytes (m.state.usedBytes + bytes))
            fun _ => m.state.peakBytes
          requestedBytes
          delegatedBytes := lender.elim (m.state.delegatedBytes + bytes)
            fun _ => m.state.delegatedBytes
          delegations :=
            changeLender lender (DelegationRecord.lend bytes) m.state.delegations ++ [new]
          log }
        owners } : Machine).accounts =
      Function.update (m.accounts.move lender (.lend bytes)) (some new.identity)
        (Envelope.fresh bytes) := by
  have hids := identities_changeLender m.state.delegations (DelegationRecord.lend bytes)
    (fun _ => rfl) lender
  have hfresh' : new.identity ∉
      identities (changeLender lender (DelegationRecord.lend bytes) m.state.delegations) :=
    hids ▸ hfresh
  have hnested := nested_changeLender m.state.delegations (DelegationRecord.lend bytes)
    (fun _ => rfl) lender
  simp only [DelegationRecord.place, Prod.mk.injEq] at hplace
  obtain ⟨hlive, hparent, hcapacity⟩ := hplace
  have hsum : ∀ owner, nested (changeLender lender (DelegationRecord.lend bytes)
      m.state.delegations ++ [new]) owner =
      nested m.state.delegations owner + if lender = owner then bytes else 0 := by
    intro owner
    rw [nested_append, (hnested owner).1, hparent, hcapacity]
    simp only [hlive, true_and]
  have hcount : ∀ owner, nestedCount (changeLender lender (DelegationRecord.lend bytes)
      m.state.delegations ++ [new]) owner =
      nestedCount m.state.delegations owner + if lender = owner then 1 else 0 := by
    intro owner
    rw [nestedCount_append, (hnested owner).2, hparent]
    simp only [hlive, true_and]
  have hother : ∀ j, j ≠ new.identity → recordOf (changeLender lender
      (DelegationRecord.lend bytes) m.state.delegations ++ [new]) j =
      if some j = lender then (recordOf m.state.delegations j).map (DelegationRecord.lend bytes)
      else recordOf m.state.delegations j := by
    intro j hj
    rw [recordOf_append_of_ne hj,
      recordOf_changeLender _ (DelegationRecord.lend bytes) fun _ => rfl]
  obtain ⟨hunheld, hunstaged, hunlent, huncounted⟩ := h.unused hfresh
  funext c
  by_cases hc : c = some new.identity
  · subst hc
    have hne : lender ≠ some new.identity := fun hlent => hfresh (hlender _ hlent)
    rw [Function.update_self, accounts_some (recordOf_append_self hfresh'), hsum, hcount, hunheld,
      hunstaged, hunlent, huncounted, if_neg hne, if_neg hne]
    exact hblank
  · rw [Function.update_of_ne hc]
    by_cases hlent : c = lender
    · subst hlent
      rw [Ledger.move_self]
      cases c with
      | none =>
        simp only [accounts, hsum, hcount, if_true]
        rfl
      | some j =>
        obtain ⟨record, hrecord, -⟩ := exists_record (hlender j rfl)
        have hj := hother j fun hsame => hc (congrArg some hsame)
        rw [if_pos rfl, hrecord, Option.map_some] at hj
        rw [accounts_some hrecord, accounts_some hj, hsum, hcount, if_pos rfl, if_pos rfl]
        rfl
    · rw [Ledger.move_of_ne _ hlent]
      cases c with
      | none =>
        cases lender with
        | none => exact absurd rfl hlent
        | some parent => simp [accounts, hsum, hcount]
      | some j =>
        have hj := hother j fun hsame => hc (congrArg some hsame)
        rw [if_neg hlent] at hj
        simp only [accounts, hj, hsum, hcount, if_neg (Ne.symm hlent), add_zero]

theorem Sound.delegateCapacity (h : Sound root m) {owner : Option DelegatedMemoryLease}
    {identity : LeaseIdentity} {logicalPath : String} {capacityBytes : ℕ}
    (he : Effect m (.delegateCapacity owner identity logicalPath capacityBytes) m') :
    Sound root m' := by
  cases he with
  | @lent _ _ _ _ sequence log lender hopen howner hlender hchild hfresh hroom henabled hcreated
      hlog =>
    have hshape := h.changeLender lender (DelegationRecord.lend capacityBytes) fun _ => rfl
    have hids := identities_changeLender m.state.delegations (DelegationRecord.lend capacityBytes)
      (fun _ => rfl) lender
    have hfresh' : identity ∉ identities (changeLender lender (DelegationRecord.lend capacityBytes)
        m.state.delegations) := hids ▸ hfresh
    refine { hshape with
      nodup := ?_
      delegations_le := ?_
      placed := ?_
      registered := ?_
      owners := ?_
      charges := ?_
      prepared := ?_
      balanced := ?_
      pooled := ?_
      publishedBytes := ?_
      childPublishedBytes := ?_ }
    · rw [identities_append, List.nodup_append]
      refine ⟨hshape.nodup, List.nodup_singleton _, ?_⟩
      intro a ha b hb hab
      rw [hab, List.mem_singleton.1 hb] at ha
      exact hfresh' ha
    · have hlength := congrArg List.length hids
      simp only [identities, List.length_map] at hlength
      rw [List.length_append, hlength]
      exact hroom
    · intro record hrecord
      rw [identities_append]
      rcases List.mem_append.1 hrecord with hrecord | hrecord
      · obtain ⟨hchild, hsubject, hdomain, hparent⟩ := hshape.placed record hrecord
        exact ⟨hchild, hsubject, hdomain, fun p hp => List.mem_append_left _ (hparent p hp)⟩
      · rw [List.mem_singleton.1 hrecord]
        have hrootChild := hchild root h.rootIdentity
        obtain ⟨hsubject, hdomain⟩ := h.subjects hlender hrootChild
        refine ⟨hrootChild, hsubject, hdomain, fun p hp => List.mem_append_left _ ?_⟩
        rw [hids]
        exact hlender p hp
    · intro record hrecord
      obtain ⟨hpos, henvelope, hmem⟩ := hshape.registered record hrecord
      rw [identities_append]
      exact ⟨hpos, henvelope, List.mem_append_left _ hmem⟩
    · intro lease hlease
      rcases List.mem_cons.1 hlease with rfl | hlease
      · exact ⟨_, List.mem_append_right _ (List.mem_singleton_self _), rfl, rfl⟩
      · obtain ⟨record, hrecord, hsame⟩ := hshape.owners lease hlease
        exact ⟨record, List.mem_append_left _ hrecord, hsame⟩
    · intro charge hcharge j hj
      rw [identities_append]
      exact List.mem_append_left _ (hshape.charges charge hcharge j hj)
    · intro transfer htransfer
      rw [identities_append]
      exact List.mem_append_left _ (hshape.prepared transfer htransfer)
    · rw [accounts_lent h.toShape hlender hfresh rfl rfl]
      exact (h.balanced.move henabled).insert (by norm_num) _ _
    · exact h.pooled
    · intro record hrecord
      rcases List.mem_append.1 hrecord with hrecord | hrecord
      · exact h.publishedBytes_changeLender lender (DelegationRecord.lend capacityBytes)
          (fun _ => ⟨rfl, rfl⟩) record hrecord
      · rw [List.mem_singleton.1 hrecord]
        exact (h.unpublished hfresh).symm
    · exact h.childPublishedBytes

theorem Shape.parent_ne (h : Shape root m) {record : DelegationRecord}
    (hmem : record ∈ m.state.delegations) : record.parentIdentity ≠ some record.identity := by
  intro hparent
  have hchild := (h.placed record hmem).child
  rw [hparent] at hchild
  have hlength := LeaseIdentity.length_of_isDirectChildOf hchild
  simp only [Option.getD_some] at hlength
  omega

/-- What the account of a lender has lent is read off the records. -/
theorem Shape.accounts_nested (h : Shape root m) {record : DelegationRecord}
    (hmem : record ∈ m.state.delegations) :
    (m.accounts record.parentIdentity).nested =
        nested m.state.delegations record.parentIdentity ∧
      (m.accounts record.parentIdentity).nestedCount =
        nestedCount m.state.delegations record.parentIdentity := by
  cases hparent : record.parentIdentity with
  | none => exact ⟨rfl, rfl⟩
  | some parent =>
    obtain ⟨lender, hlender, -⟩ := exists_record ((h.placed record hmem).parent parent hparent)
    rw [accounts_some hlender]
    exact ⟨rfl, rfl⟩

/-- A closed record is no longer among the loans of its lender. -/
theorem nested_close {records : List DelegationRecord} (hnodup : (identities records).Nodup)
    {identity : LeaseIdentity} {record : DelegationRecord}
    (hrecord : recordOf records identity = some record) (hlive : record.disposition = .live)
    (sequence : ℕ) (implicitReturn : Bool) (closeRoot : Digest) (lender : Option LeaseIdentity) :
    nested (changeRecord identity (DelegationRecord.close sequence implicitReturn closeRoot)
        records) lender + (if record.parentIdentity = lender then record.capacityBytes else 0) =
      nested records lender := by
  obtain ⟨hmem, rfl⟩ := mem_of_lookup hrecord
  have hsum := totalWhere_modifyKey
    (f := DelegationRecord.close sequence implicitReturn closeRoot)
    (g := DelegationRecord.capacityBytes)
    (p := fun record => record.disposition = .live ∧ record.parentIdentity = lender) hnodup hmem
  simp only [hlive, true_and, DelegationRecord.close, reduceCtorEq, false_and, if_false,
    add_zero] at hsum
  exact hsum

theorem nestedCount_close {records : List DelegationRecord} (hnodup : (identities records).Nodup)
    {identity : LeaseIdentity} {record : DelegationRecord}
    (hrecord : recordOf records identity = some record) (hlive : record.disposition = .live)
    (sequence : ℕ) (implicitReturn : Bool) (closeRoot : Digest) (lender : Option LeaseIdentity) :
    nestedCount (changeRecord identity (DelegationRecord.close sequence implicitReturn closeRoot)
        records) lender + (if record.parentIdentity = lender then 1 else 0) =
      nestedCount records lender := by
  obtain ⟨hmem, rfl⟩ := mem_of_lookup hrecord
  have hsum := totalWhere_modifyKey
    (f := DelegationRecord.close sequence implicitReturn closeRoot) (g := fun _ => 1)
    (p := fun record => record.disposition = .live ∧ record.parentIdentity = lender) hnodup hmem
  simp only [hlive, true_and, DelegationRecord.close, reduceCtorEq, false_and, if_false,
    add_zero] at hsum
  exact hsum

section Reclaimed

variable {records : List DelegationRecord} {identity : LeaseIdentity} {record : DelegationRecord}

/-- The records after the capacity of a record has gone back to its lender and it is closed. -/
def reclaimed (records : List DelegationRecord) (record : DelegationRecord)
    (identity : LeaseIdentity) (sequence : ℕ) (implicitReturn : Bool) (closeRoot : Digest) :
    List DelegationRecord :=
  changeRecord identity (DelegationRecord.close sequence implicitReturn closeRoot)
    (changeLender record.parentIdentity (DelegationRecord.reclaim record.capacityBytes) records)

theorem recordOf_lender_reclaim (hrecord : recordOf records identity = some record)
    (hne : record.parentIdentity ≠ some identity) :
    recordOf (changeLender record.parentIdentity (DelegationRecord.reclaim record.capacityBytes)
      records) identity = some record := by
  rw [recordOf_changeLender records (DelegationRecord.reclaim record.capacityBytes)
    (fun _ => rfl), if_neg (Ne.symm hne), hrecord]

theorem recordOf_reclaimed (hrecord : recordOf records identity = some record)
    (hne : record.parentIdentity ≠ some identity) (sequence : ℕ) (implicitReturn : Bool)
    (closeRoot : Digest) (j : LeaseIdentity) :
    recordOf (reclaimed records record identity sequence implicitReturn closeRoot) j =
      if j = identity then
        some (DelegationRecord.close sequence implicitReturn closeRoot record)
      else if some j = record.parentIdentity then
        (recordOf records j).map (DelegationRecord.reclaim record.capacityBytes)
      else recordOf records j := by
  rw [reclaimed, recordOf_changeRecord (DelegationRecord.close sequence implicitReturn closeRoot)
    fun _ => rfl, recordOf_lender_reclaim hrecord hne,
    recordOf_changeLender records (DelegationRecord.reclaim record.capacityBytes) fun _ => rfl]
  rfl

theorem nested_reclaimed (hnodup : (identities records).Nodup)
    (hrecord : recordOf records identity = some record) (hlive : record.disposition = .live)
    (hne : record.parentIdentity ≠ some identity) (sequence : ℕ) (implicitReturn : Bool)
    (closeRoot : Digest) (lender : Option LeaseIdentity) :
    nested (reclaimed records record identity sequence implicitReturn closeRoot) lender =
        nested records lender - (if record.parentIdentity = lender then record.capacityBytes else 0) ∧
      nestedCount (reclaimed records record identity sequence implicitReturn closeRoot) lender =
        nestedCount records lender - if record.parentIdentity = lender then 1 else 0 := by
  have hself := recordOf_lender_reclaim hrecord hne
  obtain ⟨hsum, hcount⟩ := nested_changeLender records
    (DelegationRecord.reclaim record.capacityBytes) (fun _ => rfl) record.parentIdentity lender
  rw [← identities_changeLender records (DelegationRecord.reclaim record.capacityBytes)
    (fun _ => rfl) record.parentIdentity] at hnodup
  have hclosed := nested_close hnodup hself hlive sequence implicitReturn closeRoot lender
  have hcounted := nestedCount_close hnodup hself hlive sequence implicitReturn closeRoot lender
  rw [hsum] at hclosed
  rw [hcount] at hcounted
  rw [reclaimed]
  omega

end Reclaimed

theorem accounts_returned (h : Sound root m) {owner : DelegatedMemoryLease}
    {record : DelegationRecord} {publications : List PublicationRecord} {sequence : ℕ}
    {implicitReturn : Bool} {closeRoot : Digest} {owners : List DelegatedMemoryLease}
    {log : RefusalLog} (hperm : publications.Perm m.state.publications)
    (hrecord : recordOf m.state.delegations owner.identity = some record)
    (hlive : record.disposition = .live) :
    ({ m with
        state := { m.state with
          usedBytes := record.parentIdentity.elim (m.state.usedBytes - record.capacityBytes)
            fun _ => m.state.usedBytes
          returnedDelegatedBytes :=
            record.parentIdentity.elim (m.state.returnedDelegatedBytes + record.capacityBytes)
              fun _ => m.state.returnedDelegatedBytes
          delegations := reclaimed m.state.delegations record owner.identity sequence
            implicitReturn closeRoot
          publications
          log }
        owners } : Machine).accounts =
      (m.accounts.move record.parentIdentity (.reclaim record.capacityBytes)).move
        (some owner.identity) .close := by
  obtain ⟨hmem, hidentity⟩ := mem_of_lookup hrecord
  have hne : record.parentIdentity ≠ some owner.identity := hidentity ▸ h.parent_ne hmem
  have hsum := fun lender =>
    (nested_reclaimed h.nodup hrecord hlive hne sequence implicitReturn closeRoot lender).1
  have hcount := fun lender =>
    (nested_reclaimed h.nodup hrecord hlive hne sequence implicitReturn closeRoot lender).2
  have hrecords := recordOf_reclaimed hrecord hne sequence implicitReturn closeRoot
  have htransferred : ∀ p : LeaseIdentity → Prop, ∀ [DecidablePred p],
      transferred publications .prepared p = transferred m.state.publications .prepared p :=
    fun p _ => totalWhere_perm hperm
  apply Ledger.eq_move
  · rw [Ledger.move_of_ne _ (Ne.symm hne), accounts_some hrecord]
    have hnew := hrecords owner.identity
    rw [if_pos rfl] at hnew
    rw [accounts_some hnew, hsum, hcount, htransferred, if_neg hne, if_neg hne]
    rfl
  · intro c hc
    by_cases hlent : c = record.parentIdentity
    · have hmove : (m.accounts.move record.parentIdentity (.reclaim record.capacityBytes)) c =
          (Envelope.Move.reclaim record.capacityBytes).apply (m.accounts c) := by
        rw [hlent, Ledger.move_self]
      rw [hmove]
      cases c with
      | none =>
        simp only [accounts, hsum, hcount, if_pos hlent.symm]
        rw [← hlent]
        rfl
      | some j =>
        obtain ⟨parent, hparent, -⟩ := exists_record
          ((h.placed record hmem).parent j hlent.symm)
        have hnew := hrecords j
        rw [if_neg fun hsame => hc (congrArg some hsame), if_pos hlent, hparent,
          Option.map_some] at hnew
        rw [accounts_some hparent, accounts_some hnew, hsum, hcount, htransferred,
          if_pos hlent.symm, if_pos hlent.symm]
        rfl
    · rw [Ledger.move_of_ne _ hlent]
      cases c with
      | none =>
        obtain ⟨parent, hparent⟩ := Option.ne_none_iff_exists.1 (Ne.symm hlent)
        simp only [accounts, hsum, hcount, if_neg (Ne.symm hlent), Nat.sub_zero]
        rw [← hparent]
        rfl
      | some j =>
        have hnew := hrecords j
        rw [if_neg fun hsame => hc (congrArg some hsame), if_neg hlent] at hnew
        simp only [accounts, hnew, hsum, hcount, htransferred, if_neg (Ne.symm hlent), Nat.sub_zero]

theorem Sound.closeOwner (h : Sound root m) {owner : DelegatedMemoryLease} {implicitReturn : Bool}
    (he : Effect m (.closeOwner owner implicitReturn) m') : Sound root m' := by
  cases he with
  | @returned _ _ record sequence closeRoot log hrecord hlive hused hchildren hlog =>
    obtain ⟨hmem, hidentity⟩ := mem_of_lookup hrecord
    have hperm := LeaseState.sortPublications_perm m.state.publications
    have hshape := (h.changeLender record.parentIdentity
      (DelegationRecord.reclaim record.capacityBytes) fun _ => rfl).changeRecord owner.identity
      (DelegationRecord.close sequence implicitReturn closeRoot) fun _ => rfl
    have htransferred : ∀ (disposition : PublicationDisposition) (p : LeaseIdentity → Prop)
        [DecidablePred p], transferred (LeaseState.sortPublications m.state.publications)
          disposition p = transferred m.state.publications disposition p :=
      fun disposition p _ => totalWhere_perm hperm
    refine { hshape with
      bindings := (hperm.map _).nodup_iff.2 h.bindings
      publications_le := hperm.length_eq.trans_le h.publications_le
      registered := fun other hother => hshape.registered other (hperm.mem_iff.1 hother)
      owners := fun lease hlease => hshape.owners lease (List.mem_of_mem_erase hlease)
      balanced := ?_
      pooled := ?_
      publishedBytes := ?_
      childPublishedBytes := ?_ }
    · rw [← reclaimed, accounts_returned h hperm hrecord hlive]
      have hlent : record.capacityBytes ≤ nested m.state.delegations record.parentIdentity :=
        le_totalWhere (g := DelegationRecord.capacityBytes)
          (p := fun other : DelegationRecord => other.disposition = .live ∧
            other.parentIdentity = record.parentIdentity) hmem ⟨hlive, rfl⟩
      have hone : 1 ≤ nestedCount m.state.delegations record.parentIdentity :=
        le_totalWhere (g := fun _ => 1) (p := fun other : DelegationRecord =>
          other.disposition = .live ∧ other.parentIdentity = record.parentIdentity) hmem
          ⟨hlive, rfl⟩
      obtain ⟨hnested, hcount⟩ := h.accounts_nested hmem
      have hreclaim : (Envelope.Move.reclaim record.capacityBytes).Enabled (2 ^ 128)
          (m.accounts record.parentIdentity) := ⟨hnested ▸ hlent, hcount ▸ hone⟩
      apply (h.balanced.move hreclaim).move
      have hne : some owner.identity ≠ record.parentIdentity :=
        Ne.symm (hidentity ▸ h.parent_ne hmem)
      have hempty := (h.envelope hrecord).children_eq
      rw [Ledger.move_of_ne _ hne, accounts_some hrecord]
      exact ⟨hused, hempty ▸ hchildren⟩
    · have hpool := h.pooled
      simp only [pool, htransferred] at hpool ⊢
      exact hpool
    · intro other hother
      obtain ⟨old, hold, rfl⟩ := mem_modifyKey.1 hother
      have hbytes := h.publishedBytes_changeLender record.parentIdentity
        (DelegationRecord.reclaim record.capacityBytes) (fun _ => ⟨rfl, rfl⟩) old hold
      rw [htransferred]
      by_cases hk : old.identity = owner.identity
      · rw [if_pos hk]
        exact hbytes
      · rw [if_neg hk]
        exact hbytes
    · rw [htransferred]
      exact h.childPublishedBytes

/-! ### The seal -/

theorem Sound.seal (h : Sound root m) (he : Effect m .sealRoot m') : Sound root m' := by
  cases he with
  | terminal hterminal => exact h
  | @closed sealSequence receipt log hterminal hsequence hlog =>
    have hperm := LeaseState.sortPublications_perm m.state.publications
    have hrecords := LeaseState.sortDelegations_perm m.state.delegations
    have hids : (identities (LeaseState.sortDelegations m.state.delegations)).Perm
        (identities m.state.delegations) := hrecords.map _
    have htransferred : ∀ (disposition : PublicationDisposition) (p : LeaseIdentity → Prop)
        [DecidablePred p], transferred (LeaseState.sortPublications m.state.publications)
          disposition p = transferred m.state.publications disposition p :=
      fun disposition p _ => totalWhere_perm hperm
    have hnested : ∀ lender, nested (LeaseState.sortDelegations m.state.delegations) lender =
        nested m.state.delegations lender := fun lender => totalWhere_perm hrecords
    have hcount : ∀ lender, nestedCount (LeaseState.sortDelegations m.state.delegations) lender =
        nestedCount m.state.delegations lender := fun lender => totalWhere_perm hrecords
    have hrecord : ∀ j, recordOf (LeaseState.sortDelegations m.state.delegations) j =
        recordOf m.state.delegations j := fun j => lookup_perm h.nodup hrecords.symm
    refine { h with
      nodup := hids.nodup_iff.2 h.nodup
      delegations_le := hrecords.length_eq.trans_le h.delegations_le
      placed := ?_
      bindings := (hperm.map _).nodup_iff.2 h.bindings
      publications_le := hperm.length_eq.trans_le h.publications_le
      registered := ?_
      owners := ?_
      charges := fun charge hcharge j hj => hids.mem_iff.2 (h.charges charge hcharge j hj)
      prepared := fun transfer htransfer => hids.mem_iff.2 (h.prepared transfer htransfer)
      balanced := ?_
      pooled := ?_
      publishedBytes := ?_
      childPublishedBytes := ?_ }
    · intro record hmem
      obtain ⟨hchild, hsubject, hdomain, hparent⟩ := h.placed record (hrecords.mem_iff.1 hmem)
      exact ⟨hchild, hsubject, hdomain, fun p hp => hids.mem_iff.2 (hparent p hp)⟩
    · intro record hmem
      obtain ⟨hpos, henvelope, hchild⟩ := h.registered record (hperm.mem_iff.1 hmem)
      exact ⟨hpos, henvelope, hids.mem_iff.2 hchild⟩
    · intro lease hlease
      obtain ⟨record, hmem, hsame⟩ := h.owners lease hlease
      exact ⟨record, hrecords.mem_iff.2 hmem, hsame⟩
    · intro c
      have hc := h.balanced c
      cases c <;> simpa only [accounts, hrecord, hnested, hcount, htransferred] using hc
    · have hpool := h.pooled
      simpa only [pool, htransferred] using hpool
    · intro record hmem
      rw [htransferred]
      exact h.publishedBytes record (hrecords.mem_iff.1 hmem)
    · rw [htransferred]
      exact h.childPublishedBytes

/-- Every effect keeps the machine sound. -/
theorem Sound.effect (h : Sound root m) {a : Action} (he : Effect m a m') : Sound root m' := by
  cases a with
  | enableDelegation => nomatch he
  | reserve => exact h.reserve he
  | delegateCapacity => exact h.delegateCapacity he
  | reserveIn => exact h.reserveIn he
  | dropCharge => exact h.dropCharge he
  | prepare => exact h.prepare he
  | publish => exact h.publish he
  | rollback => exact h.rollback he
  | closePublished => exact h.closePublished he
  | closeOwner => exact h.closeOwner he
  | sealRoot => exact h.seal he

end Machine

end FrankenSim.Lease
