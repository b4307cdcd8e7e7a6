import FrankenSim.Lease.Conservation

/-!
# Refusals and the seal

A refused action leaves the books alone, and no action panics. The first seal
freezes admission, after which no account grows; a successful seal fixes the receipt
of every later one.
-/
namespace FrankenSim.Lease

open Library

/-- The actions that ask for capacity. -/
def Action.admits : Action → Bool
  | .reserve .. | .delegateCapacity .. | .reserveIn .. | .prepare .. => true
  | _ => false

namespace Machine

variable {root : LeaseIdentity} {m m' : Machine} {limit : ℕ}

def Succeeds (m : Machine) (a : Action) : Prop := ∃ m', m.exec a = some (.ok (), m')

/-- No account occupies more than before. -/
structure Shrinks (m m' : Machine) : Prop where
  used : m'.state.usedBytes ≤ m.state.usedBytes
  records : ∀ record ∈ m'.state.delegations, ∃ old ∈ m.state.delegations,
    old.identity = record.identity ∧ record.usedBytes ≤ old.usedBytes

theorem Shrinks.refl (m : Machine) : Shrinks m m :=
  ⟨le_rfl, fun record hrecord => ⟨record, hrecord, rfl, le_rfl⟩⟩

theorem Shrinks.trans {m'' : Machine} (h : Shrinks m m') (h' : Shrinks m' m'') : Shrinks m m'' where
  used := h'.used.trans h.used
  records := by
    intro record hrecord
    obtain ⟨mid, hmid, hidentity, hle⟩ := h'.records record hrecord
    obtain ⟨old, hold, hidentity', hle'⟩ := h.records mid hmid
    exact ⟨old, hold, hidentity'.trans hidentity, hle.trans hle'⟩

theorem Unchanged.shrinks (h : Unchanged m m') : Shrinks m m' where
  used := (h.part LeaseState.usedBytes fun _ => rfl).le
  records := by
    intro record hrecord
    obtain ⟨old, hold, heq⟩ := h.exists_account hrecord
    exact ⟨old, hold, account_part heq DelegationRecord.identity fun _ => rfl,
      (account_part heq DelegationRecord.usedBytes fun _ => rfl).ge⟩

/-- A change of one record that lowers its bytes. -/
theorem shrinks_changeRecord {identity : LeaseIdentity} {f : DelegationRecord → DelegationRecord}
    {records : List DelegationRecord} {record : DelegationRecord}
    (hrecord : record ∈ changeRecord identity f records)
    (hf : ∀ record, (f record).identity = record.identity ∧
      (f record).usedBytes ≤ record.usedBytes) :
    ∃ old ∈ records, old.identity = record.identity ∧ record.usedBytes ≤ old.usedBytes := by
  obtain ⟨old, hold, rfl⟩ := mem_modifyKey.1 hrecord
  refine ⟨old, hold, ?_⟩
  by_cases hk : old.identity = identity
  · rw [if_pos hk]
    exact ⟨(hf old).1.symm, (hf old).2⟩
  · rw [if_neg hk]
    exact ⟨rfl, le_rfl⟩

theorem Effect.shrinks {a : Action} (he : Effect m a m') (hsealed : m.state.sealed = true) :
    Shrinks m m' := by
  cases he with
  | granted hopen => exact absurd hsealed (by simp [hopen])
  | released =>
    exact ⟨Nat.sub_le _ _, fun record hrecord => ⟨record, hrecord, rfl, le_rfl⟩⟩
  | dropped hu => exact hu.shrinks
  | lent hopen => exact absurd hsealed (by simp [hopen])
  | grantedIn hopen => exact absurd hsealed (by simp [hopen])
  | releasedIn =>
    refine ⟨le_rfl, fun record hrecord => shrinks_changeRecord hrecord fun record => ⟨rfl, ?_⟩⟩
    exact Nat.sub_le _ _
  | staged hopen => exact absurd hsealed (by simp [hopen])
  | published =>
    refine ⟨le_rfl, fun record hrecord => shrinks_changeRecord hrecord fun record => ⟨rfl, ?_⟩⟩
    exact Nat.sub_le _ _
  | rolledBack =>
    refine ⟨le_rfl, fun record hrecord => shrinks_changeRecord hrecord fun record => ⟨rfl, ?_⟩⟩
    exact Nat.sub_le _ _
  | destinationClosed => exact ⟨le_rfl, fun record hrecord => ⟨record, hrecord, rfl, le_rfl⟩⟩
  | @returned owner implicitReturn record =>
    constructor
    · cases record.parentIdentity with
      | none => exact Nat.sub_le _ _
      | some parent => exact le_rfl
    · intro new hnew
      obtain ⟨mid, hmid, hidentity, hle⟩ := shrinks_changeRecord hnew fun _ => ⟨rfl, le_rfl⟩
      cases hparent : record.parentIdentity with
      | none =>
        rw [hparent] at hmid
        exact ⟨mid, hmid, hidentity, hle⟩
      | some parent =>
        rw [hparent] at hmid
        obtain ⟨old, hold, hidentity', hle'⟩ :=
          shrinks_changeRecord hmid fun _ => ⟨rfl, Nat.sub_le _ _⟩
        exact ⟨old, hold, hidentity'.trans hidentity, hle.trans hle'⟩
  | closed =>
    exact ⟨le_rfl, fun record hrecord =>
      ⟨record, (LeaseState.sortDelegations_perm _).subset hrecord, rfl, le_rfl⟩⟩
  | terminal => exact .refl m

/-- A sealed root stays sealed, and a terminal receipt stays. -/
theorem Effect.sealed {a : Action} (he : Effect m a m') :
    (m.state.sealed = true → m'.state.sealed = true) ∧
      ∀ receipt, m.state.terminalReceipt = some receipt →
        m'.state.terminalReceipt = some receipt := by
  cases he with
  | dropped hu => exact ⟨hu.sealed, fun receipt hreceipt => hu.terminal.trans hreceipt⟩
  | closed hterminal =>
    refine ⟨fun _ => rfl, fun receipt hreceipt => ?_⟩
    rw [hterminal] at hreceipt
    cases hreceipt
  | _ => exact ⟨id, fun _ => id⟩

/-- What holds between two states once the root is sealed. -/
theorem Outcome.sealed {a : Action} {response : Response} (h : Outcome m a response m')
    (hsealed : m.state.sealed = true) :
    m'.state.sealed = true ∧ Shrinks m m' ∧
      ∀ receipt, m.state.terminalReceipt = some receipt →
        m'.state.terminalReceipt = some receipt := by
  cases h with
  | refused hreason hu =>
    exact ⟨hu.sealed hsealed, hu.shrinks, fun receipt hreceipt => hu.terminal.trans hreceipt⟩
  | done he => exact ⟨he.sealed.1 hsealed, he.shrinks hsealed, he.sealed.2⟩

/-- No request for capacity succeeds at a sealed root. -/
theorem Sound.not_succeeds (h : Sound root m) (hs : Sequenced m.state)
    (hsealed : m.state.sealed = true) {a : Action} (ha : a.admits = true) (hholds : m.Holds a) :
    ¬m.Succeeds a := by
  rintro ⟨n, hexec⟩
  obtain ⟨response, m', hexec', houtcome⟩ := runs h hs hholds
  rw [hexec] at hexec'
  cases hexec'
  cases houtcome with
  | done he =>
    cases he with
    | granted hopen => exact absurd hsealed (by simp [hopen])
    | lent hopen => exact absurd hsealed (by simp [hopen])
    | grantedIn hopen => exact absurd hsealed (by simp [hopen])
    | staged hopen => exact absurd hsealed (by simp [hopen])
    | _ => cases ha

/-! ### The seal -/

theorem sealRoot_terminal {s : LeaseState} {receipt : SealedLeaseReceipt}
    (h : s.terminalReceipt = some receipt) : s.sealRoot = some (.ok receipt, s) := by
  unfold LeaseState.sealRoot
  rw [h]

/-- A seal freezes the root, and a successful one keeps its receipt. -/
theorem sealRoot_sealed {s s' : LeaseState} {result : Except LeaseSealRefusal SealedLeaseReceipt}
    (hterminal : s.terminalReceipt = none) (h : s.sealRoot = some (result, s')) :
    s'.sealed = true ∧ ∀ receipt, result = .ok receipt → s'.terminalReceipt = some receipt := by
  unfold LeaseState.sealRoot at h
  rw [hterminal] at h
  dsimp only at h
  split at h
  · cases h
    exact ⟨rfl, fun _ hok => nomatch hok⟩
  · split at h
    · split at h
      · cases h
      · cases h
        refine ⟨rfl, fun receipt hok => ?_⟩
        cases hok
        rfl
    · cases h

/-- The receipt of a root is terminal only when the root is sealed. -/
theorem terminal_sealed {actions : List Action} (h : Run Step (start limit) actions m) :
    m.state.terminalReceipt.isSome = true → m.state.sealed = true := by
  refine (h.invariant (P := fun m => Reached limit m ∧
    (m.state.terminalReceipt.isSome = true → m.state.sealed = true))
    ⟨reached_start limit, fun hnone => nomatch hnone⟩ ?_).2
  intro t a u hinv hstep
  refine ⟨hinv.1.step hstep, ?_⟩
  rcases hinv.1.phase with hu | ⟨root, hm⟩
  · cases hu.effect hstep with
    | unchanged hunchanged =>
      intro hsome
      rw [hunchanged.terminal] at hsome
      exact hunchanged.sealed (hinv.2 hsome)
    | _ => exact hinv.2
  · obtain ⟨response, -, houtcome⟩ := hm.step hinv.1.sequenced hstep
    cases houtcome with
    | refused hreason hunchanged =>
      intro hsome
      rw [hunchanged.terminal] at hsome
      exact hunchanged.sealed (hinv.2 hsome)
    | done he =>
      cases he with
      | dropped hunchanged =>
        intro hsome
        rw [hunchanged.terminal] at hsome
        exact hunchanged.sealed (hinv.2 hsome)
      | closed => exact fun _ => rfl
      | _ => exact hinv.2

/-- What the seal leaves behind, over every continuation of the run. -/
theorem Reached.after (h : Reached limit m) (hm : Sound root m) (hsealed : m.state.sealed = true)
    {later : List Action} (hlater : Run Step m later m') :
    (Reached limit m' ∧ Sound root m' ∧ m'.state.sealed = true) ∧ Shrinks m m' ∧
      ∀ receipt, m.state.terminalReceipt = some receipt →
        m'.state.terminalReceipt = some receipt := by
  induction hlater with
  | nil => exact ⟨⟨h, hm, hsealed⟩, .refl m, fun _ => id⟩
  | snoc hrun hstep ih =>
    obtain ⟨⟨hreached, hsound, hfrozen⟩, hshrinks, hterminal⟩ := ih
    obtain ⟨response, -, houtcome⟩ := hsound.step hreached.sequenced hstep
    obtain ⟨hfrozen', hshrinks', hterminal'⟩ := houtcome.sealed hfrozen
    obtain ⟨hreached', hsound'⟩ := hreached.sound hsound hstep
    exact ⟨⟨hreached', hsound', hfrozen'⟩, hshrinks.trans hshrinks',
      fun receipt hreceipt => hterminal' receipt (hterminal receipt hreceipt)⟩

/-- A seal before the first receipt succeeds exactly when nothing is live and no
violation is on record. -/
theorem succeeds_sealRoot (h : Sound root m) (hs : Sequenced m.state)
    (hterminal : m.state.terminalReceipt = none)
    (hoverflow : m.state.nextSequence.2.log.counterOverflowed = false) :
    m.Succeeds .sealRoot ↔ m.state.usedBytes = 0 ∧ m.state.countLiveDelegations = 0 ∧
      m.state.log.releaseInvariantViolations = 0 := by
  have hviolations : m.state.log.nextSequence.2.releaseInvariantViolations =
      m.state.log.releaseInvariantViolations := by
    unfold RefusalLog.nextSequence
    split <;> rfl
  obtain ⟨-, hnone⟩ := sealRefusal_spec h m.state.log.nextSequence.2
    (some (m.state.sealSequence.getD m.state.nextSequence.1))
  rw [hviolations] at hnone
  constructor
  · rintro ⟨n, hexec⟩
    cases hrefusal : ({ m.state with
      log := m.state.log.nextSequence.2
      sealed := true
      sealSequence := some (m.state.sealSequence.getD m.state.nextSequence.1) } :
        LeaseState).sealRefusal with
    | some reason =>
      obtain ⟨refusal, event, -, hseal⟩ := sealRoot_refused hterminal rfl rfl hrefusal
      unfold exec at hexec
      simp only [hseal] at hexec
      cases hexec
    | none =>
      obtain ⟨-, hclean, hused, hlive⟩ := hnone.1 hrefusal
      exact ⟨hused, hlive, hclean⟩
  · rintro ⟨hused, hlive, hclean⟩
    obtain ⟨receipt, hseal, -⟩ :=
      sealRoot_done h hs hterminal (hnone.2 ⟨hoverflow, hclean, hused, hlive⟩)
    unfold Succeeds exec
    simp only [hseal]
    exact ⟨_, rfl⟩

/-- A seal freezes the root, and the receipt it returns is terminal. -/
theorem sealed_by {actions : List Action} (h : Run Step (start limit) actions m) {m₁ : Machine}
    (hseal : Step m .sealRoot m₁) :
    m₁.state.sealed = true ∧ ∀ receipt s, m.state.sealRoot = some (.ok receipt, s) →
      m₁.state.terminalReceipt = some receipt := by
  obtain ⟨-, response, hexec⟩ := hseal
  cases hterminal : m.state.terminalReceipt with
  | some receipt =>
    have hsealed := terminal_sealed h (by rw [hterminal]; rfl)
    have hsame := sealRoot_terminal hterminal
    unfold exec at hexec
    simp only [hsame] at hexec
    cases hexec
    refine ⟨hsealed, fun other s hother => ?_⟩
    rw [hsame] at hother
    cases hother
    exact hterminal
  | none =>
    unfold exec at hexec
    cases hresult : m.state.sealRoot with
    | none =>
      simp only [hresult] at hexec
      cases hexec
    | some result =>
      obtain ⟨result, s⟩ := result
      obtain ⟨hsealed, hreceipt⟩ := sealRoot_sealed hterminal hresult
      cases result with
      | error refusal =>
        simp only [hresult] at hexec
        cases hexec
        exact ⟨hsealed, fun _ _ hother => nomatch hother⟩
      | ok receipt =>
        simp only [hresult] at hexec
        cases hexec
        refine ⟨hsealed, fun other s hother => ?_⟩
        cases hother
        exact hreceipt receipt rfl

/-- In every state of every run of a configured root: no action panics, and a refusal
keeps the books and is no inconsistency; the seal succeeds exactly when nothing is live
and no violation is on record; and from a seal on no request for capacity succeeds, no
step or sequence of steps lets an account grow, and a receipt is final. -/
theorem refusals_and_seal {actions : List Action} (h : Run Step (start limit) actions m)
    (hroot : m.state.rootIdentity.isSome = true) :
    (∀ a, m.Holds a → ∃ response m', m.exec a = some (response, m') ∧
      ∀ refusal, response = .error refusal →
        m'.state.books = m.state.books ∧ refusal.conservationMismatch = false) ∧
    (m.state.terminalReceipt = none →
      m.state.nextSequence.2.log.counterOverflowed = false →
      (m.Succeeds .sealRoot ↔ m.state.usedBytes = 0 ∧ m.state.countLiveDelegations = 0 ∧
        m.state.log.releaseInvariantViolations = 0)) ∧
    ∀ m₁ later m₂, Step m .sealRoot m₁ → Run Step m₁ later m₂ →
      (∀ a, a.admits = true → m₂.Holds a → ¬m₂.Succeeds a) ∧
        (∀ more m₃, Run Step m₂ more m₃ → Shrinks m₂ m₃) ∧
        ∀ receipt s, m.state.sealRoot = some (.ok receipt, s) →
          m₂.state.sealRoot = some (.ok receipt, m₂.state) := by
  have hreached := reached_run h
  obtain ⟨root, hsound⟩ := hreached.sound_of_configured hroot
  refine ⟨?_, succeeds_sealRoot hsound hreached.sequenced, ?_⟩
  · intro a ha
    obtain ⟨response, m', hexec, houtcome⟩ := runs hsound hreached.sequenced ha
    refine ⟨response, m', hexec, fun refusal hrefusal => ?_⟩
    subst hrefusal
    cases houtcome with
    | refused hreason hu => exact ⟨hu.books, hreason⟩
  · intro m₁ later m₂ hseal hlater
    obtain ⟨hsealed, hreceipt⟩ := sealed_by h hseal
    obtain ⟨hreached₁, hsound₁⟩ := hreached.sound hsound hseal
    obtain ⟨⟨hreached₂, hsound₂, hsealed₂⟩, -, hterminal⟩ :=
      hreached₁.after hsound₁ hsealed hlater
    refine ⟨fun a ha hholds => hsound₂.not_succeeds hreached₂.sequenced hsealed₂ ha hholds,
      fun more m₃ hmore => (hreached₂.after hsound₂ hsealed₂ hmore).2.1, fun receipt s hok => ?_⟩
    exact sealRoot_terminal (hterminal receipt (hreceipt receipt s hok))

/-- A root charge and a child that holds a charge. -/
def heldRun : List Action :=
  [.enableDelegation (LeaseIdentity.root 1 7) "op" 4 true,
    .reserve "scratch" 10,
    .delegateCapacity none solverIdentity "op/solver" 40,
    .reserveIn ⟨solverIdentity, "op/solver", 40⟩ "cells" 16]

def dropRun : List Action :=
  [.dropCharge ⟨none, 10⟩, .dropCharge ⟨some solverIdentity, 16⟩]

/-- A charge that has been returned. -/
def returnedRun : List Action :=
  [.enableDelegation (LeaseIdentity.root 1 7) "op" 4 true,
    .reserve "scratch" 10,
    .dropCharge ⟨none, 10⟩]

theorem run_of_next {m : Machine} {as : List Action} (h : runList next m as = some m') :
    Run Step m as m' :=
  (run_of_runList h).mono fun _ _ _ hnext => step_of_next hnext

theorem succeeds_receipt (h : m.Succeeds .sealRoot) :
    ∃ receipt s, m.state.sealRoot = some (.ok receipt, s) := by
  obtain ⟨n, hexec⟩ := h
  unfold exec at hexec
  cases hresult : m.state.sealRoot with
  | none =>
    simp only [hresult] at hexec
    cases hexec
  | some result =>
    obtain ⟨_ | receipt, s⟩ := result
    · simp only [hresult] at hexec
      cases hexec
    · exact ⟨receipt, s, rfl⟩

/-- With a child live the seal is refused, and from then on the charges only fall; a root whose
charge was returned seals, and seals again with the same receipt after a refused request. -/
theorem refusals_and_seal_held_returned :
    (∃ m m₁ m₂, Run Step (start 100) heldRun m ∧ Step m .sealRoot m₁ ∧ Run Step m₁ dropRun m₂ ∧
      ¬m.Succeeds .sealRoot ∧ m₁.state.usedBytes = 50 ∧ m₂.state.usedBytes = 40 ∧
      Shrinks m₁ m₂ ∧ ¬m₂.Succeeds (.reserve "late" 1)) ∧
    ∃ m m₁ m₂ receipt s, Run Step (start 100) returnedRun m ∧
      (∃ refusal m', m.exec (.reserve "large" 101) = some (.error refusal, m') ∧
        m'.state.books = m.state.books) ∧
      m.state.sealRoot = some (.ok receipt, s) ∧ Step m .sealRoot m₁ ∧
      Run Step m₁ [.reserve "late" 1] m₂ ∧ m₂.state.sealRoot = some (.ok receipt, m₂.state) := by
  constructor
  · have hrun : (runList next (start 100) (heldRun ++ .sealRoot :: dropRun)).isSome := by
      decide +kernel
    obtain ⟨m₂, hm₂⟩ := Option.isSome_iff_exists.1 hrun
    have hsplit := hm₂
    rw [runList_append] at hsplit
    obtain ⟨m, hm, hsplit⟩ := Option.bind_eq_some_iff.1 hsplit
    obtain ⟨m₁, hm₁, hdrop⟩ := Option.bind_eq_some_iff.1 hsplit
    have hfacts : ∀ m ∈ runList next (start 100) heldRun,
        m.state.rootIdentity.isSome = true ∧ m.state.terminalReceipt = none ∧
          m.state.nextSequence.2.log.counterOverflowed = false ∧ m.state.usedBytes = 50 ∧
          ∀ m₁ ∈ m.next .sealRoot, m₁.state.usedBytes = 50 := by
      decide +kernel
    have hfacts₂ : ∀ m₂ ∈ runList next (start 100) (heldRun ++ .sealRoot :: dropRun),
        m₂.state.usedBytes = 40 := by
      decide +kernel
    obtain ⟨hroot, hterminal, hoverflow, hused, hused₁⟩ := hfacts m hm
    have hstep := step_of_next hm₁
    have hdrops := run_of_next hdrop
    obtain ⟨-, hsucceeds, hafter⟩ := refusals_and_seal (run_of_next hm) hroot
    refine ⟨m, m₁, m₂, run_of_next hm, hstep, hdrops, ?_, hused₁ m₁ hm₁, hfacts₂ m₂ hm₂,
      (hafter m₁ [] m₁ hstep .nil).2.1 dropRun m₂ hdrops,
      (hafter m₁ dropRun m₂ hstep hdrops).1 _ rfl trivial⟩
    intro hok
    have hzero := ((hsucceeds hterminal hoverflow).1 hok).1
    rw [hused] at hzero
    cases hzero
  · have hrun : (runList next (start 100) returnedRun).isSome := by decide +kernel
    obtain ⟨m, hm⟩ := Option.isSome_iff_exists.1 hrun
    have hfacts : ∀ m ∈ runList next (start 100) returnedRun,
        m.state.rootIdentity.isSome = true ∧ m.state.terminalReceipt = none ∧
          m.state.nextSequence.2.log.counterOverflowed = false ∧
          (m.state.usedBytes = 0 ∧ m.state.countLiveDelegations = 0 ∧
            m.state.log.releaseInvariantViolations = 0) ∧
          (m.state.reserve "large" 101).1.toBool = false := by
      decide +kernel
    obtain ⟨hroot, hterminal, hoverflow, hclean, hlarge⟩ := hfacts m hm
    obtain ⟨hrefusals, hsucceeds, hafter⟩ := refusals_and_seal (run_of_next hm) hroot
    obtain ⟨m₁, hseal⟩ := (hsucceeds hterminal hoverflow).2 hclean
    have hstep : Step m .sealRoot m₁ := ⟨trivial, _, hseal⟩
    obtain ⟨receipt, s, hreceipt⟩ := succeeds_receipt ⟨m₁, hseal⟩
    obtain ⟨response, m', hexec, hbooks⟩ := hrefusals (.reserve "large" 101) trivial
    obtain ⟨refusal, rfl⟩ : ∃ refusal, response = .error refusal := by
      unfold exec at hexec
      cases hresult : m.state.reserve "large" 101 with
      | mk result state =>
        cases result with
        | ok =>
          rw [hresult] at hlarge
          cases hlarge
        | error refusal =>
          simp only [hresult] at hexec
          cases hexec
          exact ⟨_, rfl⟩
    have hreached := reached_run (run_of_next hm)
    obtain ⟨root, hsound⟩ := hreached.sound_of_configured hroot
    obtain ⟨hreached₁, hsound₁⟩ := hreached.sound hsound hstep
    obtain ⟨late, m₂, hexec₂, -⟩ := runs (a := .reserve "late" 1) hsound₁ hreached₁.sequenced trivial
    have hlate : Step m₁ (.reserve "late" 1) m₂ := ⟨trivial, late, hexec₂⟩
    have hlater := Run.single hlate
    exact ⟨m, m₁, m₂, receipt, s, run_of_next hm, ⟨refusal, m', hexec,
      (hbooks refusal rfl).1⟩, hreceipt, hstep, hlater,
      (hafter m₁ _ m₂ hstep hlater).2.2 receipt s hreceipt⟩

end Machine

end FrankenSim.Lease
