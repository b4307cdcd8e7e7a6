import FrankenSim.Race.Protocol
import Mathlib.Tactic

/-!
# The victory rule is schedule independent

A branch's gate is only ever requested on behalf of an accepted branch that
makes it unable to win, so under the deterministic rule the lowest accepted
branch and every branch below it keep their gates shut and end with their
natural outcomes. The decision loop then reads the winner off the slots.
-/
namespace FrankenSim.Race

open Library
variable {T : Type*} {r : Setup T}

/-- The natural value of a branch exists and the victory predicate accepts it. -/
def AcceptedValue (r : Setup T) (i : Fin r.branches.length) (v : T) : Prop :=
  (r.branches.get i).natural = .value v ∧ r.accept v = true

def Accepted (r : Setup T) (i : Fin r.branches.length) : Prop :=
  ∃ v, AcceptedValue r i v

/-- The branch that takes the decision lock first with an accepted value. -/
def firstLock {n : ℕ} (as : List (Action n)) : Option (Fin n) :=
  as.findSome? fun
    | .lock i => some i
    | _ => none

/-- What an entry of branch `i` says, given whether its body `finished`, whether
its gate was requested and whether a branch has taken the lock. -/
def EntryOk (r : Setup T) (i : Fin r.branches.length) (finished : Prop) (gate : Bool)
    (led : Prop) : Entry T → Prop
  | .ok v => finished ∧ AcceptedValue r i v ∧ led
  | .error o => (¬ finished ∧ o = .cancelled ∧ gate = true) ∨
      (¬ Accepted r i ∧ o = refusalEntry (r.branches.get i).natural)

/-- The phase and slot of branch `i` in every reachable state. A slot is filled
exactly when the thread has passed its epilogue. -/
def BranchOk (r : Setup T) (i : Fin r.branches.length) (finished : Prop) (gate : Bool)
    (led : Prop) : Phase T r.branches.length → Option (Entry T) → Prop
  | .idle, none => ¬ finished
  | .running, none => ¬ finished
  | .returned result, none => (finished ∧ result = (r.branches.get i).natural) ∨
      (¬ finished ∧ result = .cancelled ∧ gate = true)
  | .killing v l _, none => finished ∧ AcceptedValue r i v ∧ Accepted r l ∧ led
  | .recording entry, none => EntryOk r i finished gate led entry
  | .scanning _, some entry => EntryOk r i finished gate led entry
  | .done, some entry => EntryOk r i finished gate led entry
  | _, _ => False

theorem EntryOk.mono {i : Fin r.branches.length} {finished : Prop} {g g' : Bool}
    {led led' : Prop} {e : Entry T} (hg : g = true → g' = true) (hl : led → led')
    (h : EntryOk r i finished g led e) : EntryOk r i finished g' led' e := by
  cases e with
  | ok v => exact ⟨h.1, h.2.1, hl h.2.2⟩
  | error o =>
    rcases h with ⟨hf, ho, hgate⟩ | h
    · exact Or.inl ⟨hf, ho, hg hgate⟩
    · exact Or.inr h

theorem BranchOk.mono {i : Fin r.branches.length} {fin fin' : Prop} {g g' : Bool}
    {led led' : Prop} {p : Phase T r.branches.length} {e : Option (Entry T)}
    (hf : fin ↔ fin') (hg : g = true → g' = true) (hl : led → led')
    (h : BranchOk r i fin g led p e) : BranchOk r i fin' g' led' p e := by
  obtain rfl : fin = fin' := propext hf
  cases p <;> cases e <;> simp only [BranchOk] at h ⊢ <;>
    first
    | exact h
    | exact h.mono hg hl
    | exact ⟨h.1, h.2.1, h.2.2.1, hl h.2.2.2⟩
    | exact h.imp id fun h => ⟨h.1, h.2.1, hg h.2.2⟩

/-- The state of the whole race after a history in which the parent gate is
never requested. -/
structure Inv (r : Setup T) (as : List (Action r.branches.length))
    (s : State T r.branches.length) : Prop where
  parent : s.parent = false
  watcher : ∀ j, s.watcher ≠ .requesting j
  branch : ∀ i, BranchOk r i (.finish i ∈ as) (s.gates i) (s.decision.leader.isSome)
    (s.phases i) (s.slots i)
  leader : ∀ l, s.decision.leader = some l → Accepted r l ∧ .finish l ∈ as
  first : s.decision.leader.isSome = (firstLock as).isSome
  fast : r.mode = .fast → s.decision.leader = firstLock as
  gate : ∀ j, s.gates j = true →
    s.decision.leader.isSome ∧ ∃ l, Accepted r l ∧ doomed r.mode l j = true

theorem Inv.init (r : Setup T) : Inv r [] (init T r.branches.length) where
  parent := rfl
  watcher j := by simp [Race.init]
  branch i := by simp [Race.init, BranchOk]
  leader l h := by simp [Race.init] at h
  first := rfl
  fast _ := rfl
  gate j h := by simp [Race.init] at h

theorem firstLock_snoc {n : ℕ} (as : List (Action n)) (a : Action n) :
    firstLock (as ++ [a]) = (firstLock as).or (firstLock [a]) := by
  simp [firstLock, List.findSome?_append]

/-- What one step of branch `i` may change: its own phase and slot, the gates of
branches doomed by an accepted leader, and the leadership under the lock. -/
structure BranchStep (r : Setup T) (as : List (Action r.branches.length))
    (a : Action r.branches.length) (i : Fin r.branches.length)
    (s t : State T r.branches.length) : Prop where
  other : ∀ j ≠ i, t.phases j = s.phases j ∧ t.slots j = s.slots j ∧ a ≠ .finish j
  self : BranchOk r i (.finish i ∈ as ++ [a]) (t.gates i) t.decision.leader.isSome
    (t.phases i) (t.slots i)
  parent : t.parent = s.parent
  watcher : t.watcher = s.watcher
  keep : ∀ j, s.gates j = true → t.gates j = true
  gate : ∀ j, t.gates j = true → s.gates j = true ∨
    (t.decision.leader.isSome ∧ ∃ l, Accepted r l ∧ doomed r.mode l j = true)
  leader : (t.decision = s.decision ∧ firstLock [a] = none) ∨
    (a = .lock i ∧ Accepted r i ∧ .finish i ∈ as ∧
      t.decision.leader = if leads r.mode i s.decision.leader then some i else s.decision.leader)

theorem leads_isSome {n : ℕ} (mode : ExecMode) (i : Fin n) (leader : Option (Fin n)) :
    (if leads mode i leader then some i else leader).isSome = true := by
  cases leader with
  | none => simp [leads]
  | some l => split <;> rfl

theorem leads_fast {n : ℕ} (i : Fin n) (leader : Option (Fin n)) :
    (if leads .fast i leader then some i else leader) = leader.or (some i) := by
  cases leader <;> simp [leads]

theorem Inv.branchStep {as : List (Action r.branches.length)} {a : Action r.branches.length}
    {i : Fin r.branches.length} {s t : State T r.branches.length} (h : Inv r as s)
    (hs : BranchStep r as a i s t) : Inv r (as ++ [a]) t := by
  have hled : s.decision.leader.isSome = true → t.decision.leader.isSome = true := by
    intro hl
    rcases hs.leader with ⟨hd, -⟩ | ⟨-, -, -, hd⟩
    · rwa [hd]
    · rw [hd, leads_isSome]
  refine ⟨hs.parent.trans h.parent, fun j => hs.watcher ▸ h.watcher j, fun j => ?_,
    fun l hl => ?_, ?_, fun hm => ?_, fun j hj => ?_⟩
  · by_cases hj : j = i
    · exact hj ▸ hs.self
    · obtain ⟨hp, hsl, ha⟩ := hs.other j hj
      rw [hp, hsl]
      refine (h.branch j).mono ?_ (hs.keep j) hled
      simp [Ne.symm ha]
  · rcases hs.leader with ⟨hd, -⟩ | ⟨-, hacc, hfin, hd⟩
    · have := h.leader l (hd ▸ hl)
      exact ⟨this.1, List.mem_append_left _ this.2⟩
    · rw [hd] at hl
      split at hl
      · obtain rfl : i = l := by simpa using hl
        exact ⟨hacc, List.mem_append_left _ hfin⟩
      · have := h.leader l hl
        exact ⟨this.1, List.mem_append_left _ this.2⟩
  · rw [firstLock_snoc]
    rcases hs.leader with ⟨hd, ha⟩ | ⟨rfl, -, -, hd⟩
    · simp [hd, ha, h.first]
    · simp [hd, leads_isSome, firstLock]
  · rw [firstLock_snoc]
    rcases hs.leader with ⟨hd, ha⟩ | ⟨rfl, -, -, hd⟩
    · simp [hd, ha, h.fast hm]
    · rw [hd, hm, leads_fast, h.fast hm]
      rfl
  · rcases hs.gate j hj with hold | hnew
    · exact ⟨hled (h.gate j hold).1, (h.gate j hold).2⟩
    · exact hnew

/-- A step that moves branch `i` from one phase to the next and nothing else. -/
theorem BranchStep.setPhase {as : List (Action r.branches.length)}
    {a : Action r.branches.length} {i : Fin r.branches.length}
    {s : State T r.branches.length} {p : Phase T r.branches.length}
    (hother : ∀ j ≠ i, a ≠ .finish j) (hlock : firstLock [a] = none)
    (hself : BranchOk r i (.finish i ∈ as ++ [a]) (s.gates i) s.decision.leader.isSome p
      (s.slots i)) :
    BranchStep r as a i s (s.setPhase i p) where
  other j hj := ⟨Function.update_of_ne hj _ _, rfl, hother j hj⟩
  self := by simpa [State.setPhase] using hself
  parent := rfl
  watcher := rfl
  keep _ h := h
  gate _ h := Or.inl h
  leader := Or.inl ⟨rfl, hlock⟩

theorem watcherStep {as : List (Action r.branches.length)} {a : Action r.branches.length}
    {s : State T r.branches.length} {w : Watcher} (h : Inv r as s) (hlock : firstLock [a] = none)
    (ha : ∀ j, a ≠ .finish j) (hw : ∀ j, w ≠ .requesting j) :
    Inv r (as ++ [a]) { s with watcher := w } where
  parent := h.parent
  watcher := hw
  branch j := (h.branch j).mono (by simp [(ha j).symm]) id id
  leader l hl := ⟨(h.leader l hl).1, List.mem_append_left _ (h.leader l hl).2⟩
  first := by simp [firstLock_snoc, hlock, h.first]
  fast hm := by simp [firstLock_snoc, hlock, h.fast hm]
  gate := h.gate

/-- The slot of a thread that has not recorded its entry is empty. -/
theorem Inv.slot_eq_none {as : List (Action r.branches.length)} {s : State T r.branches.length}
    (h : Inv r as s) {i : Fin r.branches.length} (hdone : s.phases i ≠ .done)
    (hscan : ∀ j, s.phases i ≠ .scanning j) : s.slots i = none := by
  have hi := h.branch i
  cases hsl : s.slots i with
  | none => rfl
  | some e =>
    rw [hsl] at hi
    cases hp : s.phases i with
    | done => exact absurd hp hdone
    | scanning j => exact absurd hp (hscan j)
    | _ => simp [BranchOk, hp] at hi

section Moves

variable {as : List (Action r.branches.length)} {s : State T r.branches.length}
  {i : Fin r.branches.length}

theorem Inv.spawn (h : Inv r as s) (hp : s.phases i = .idle) :
    Inv r (as ++ [.spawn i]) (s.setPhase i (if s.parent then .folding else .running)) := by
  have hi := h.branch i
  have hnone := h.slot_eq_none (i := i) (by simp [hp]) (by simp [hp])
  rw [hp, hnone] at hi
  refine h.branchStep (BranchStep.setPhase (by simp) rfl ?_)
  simpa [BranchOk, hnone, h.parent] using hi

theorem Inv.finish (h : Inv r as s) (hp : s.phases i = .running) :
    Inv r (as ++ [.finish i]) (s.setPhase i (.returned (r.branches.get i).natural)) := by
  have hnone := h.slot_eq_none (i := i) (by simp [hp]) (by simp [hp])
  refine h.branchStep (BranchStep.setPhase (fun j hj => by simp [Ne.symm hj]) rfl ?_)
  simp [BranchOk, hnone]

theorem Inv.drain (h : Inv r as s) (hp : s.phases i = .running) (hg : s.gates i = true) :
    Inv r (as ++ [.drain i]) (s.setPhase i (.returned .cancelled)) := by
  have hi := h.branch i
  have hnone := h.slot_eq_none (i := i) (by simp [hp]) (by simp [hp])
  rw [hp, hnone] at hi
  have hfin : .finish i ∉ as := hi
  refine h.branchStep (BranchStep.setPhase (by simp) rfl ?_)
  rw [hnone]
  exact Or.inr ⟨by simpa using hfin, rfl, hg⟩

theorem Inv.lock (h : Inv r as s) {v : T} (hp : s.phases i = .returned (.value v))
    (hacc : r.accept v = true) {leader : Option (Fin r.branches.length)}
    (hleader : leader = if leads r.mode i s.decision.leader then some i else s.decision.leader) :
    Inv r (as ++ [.lock i])
      ({ s with decision := ⟨leader⟩ }.setPhase i (.killing v (leader.getD i) 0)) := by
  have hi := h.branch i
  have hnone := h.slot_eq_none (i := i) (by simp [hp]) (by simp [hp])
  rw [hp, hnone] at hi
  obtain ⟨hfin, hv⟩ : .finish i ∈ as ∧ .value v = (r.branches.get i).natural := by
    rcases hi with hi | ⟨-, hc, -⟩
    · exact hi
    · cases hc
  have hval : AcceptedValue r i v := ⟨hv.symm, hacc⟩
  have hlead : Accepted r (leader.getD i) := by
    subst hleader
    cases hl : s.decision.leader with
    | none => simpa [leads] using ⟨v, hval⟩
    | some l =>
      split
      · exact ⟨v, hval⟩
      · exact (h.leader l hl).1
  refine h.branchStep (i := i) ⟨fun j hj => ?_, ?_, rfl, rfl, fun _ h => h, fun _ h => Or.inl h,
    Or.inr ⟨rfl, ⟨v, hval⟩, hfin, hleader⟩⟩
  · exact ⟨Function.update_of_ne hj _ _, rfl, by simp⟩
  · simp only [State.setPhase, Function.update_self, hnone, BranchOk]
    refine ⟨List.mem_append_left _ hfin, hval, hlead, ?_⟩
    rw [hleader, leads_isSome]

theorem Inv.refuse (h : Inv r as s) {result : BodyResult T} (hp : s.phases i = .returned result)
    (hnot : ∀ v, result = .value v → r.accept v = false) :
    Inv r (as ++ [.refuse i]) (s.setPhase i (.recording (.error (refusalEntry result)))) := by
  have hi := h.branch i
  have hnone := h.slot_eq_none (i := i) (by simp [hp]) (by simp [hp])
  rw [hp, hnone] at hi
  refine h.branchStep (BranchStep.setPhase (by simp) rfl ?_)
  rw [hnone]
  rcases hi with ⟨-, hres⟩ | ⟨hfin, hres, hg⟩
  · refine Or.inr ⟨?_, by rw [hres]⟩
    rintro ⟨v, hv, hacc⟩
    simp [hnot v (hres.trans hv)] at hacc
  · exact Or.inl ⟨by simpa using hfin, by simp [hres, refusalEntry], hg⟩

theorem Inv.kill (h : Inv r as s) {v : T} {l j : Fin r.branches.length}
    (hp : s.phases i = .killing v l j) :
    Inv r (as ++ [.kill i])
      ((if doomed r.mode l j then s.request j else s).setPhase i (.killing v l (j + 1))) := by
  have hi := h.branch i
  have hnone := h.slot_eq_none (i := i) (by simp [hp]) (by simp [hp])
  rw [hp, hnone] at hi
  obtain ⟨hfin, hval, hl, hled⟩ := hi
  have hfin' : .finish i ∈ as ++ [.kill i] := List.mem_append_left _ hfin
  by_cases hd : doomed r.mode l j = true
  · rw [if_pos hd]
    refine h.branchStep (i := i) ⟨fun k hk => ?_, ?_, rfl, rfl, fun k hk => ?_, fun k hk => ?_,
      Or.inl ⟨rfl, rfl⟩⟩
    · exact ⟨Function.update_of_ne hk _ _, rfl, by simp⟩
    · simp only [State.setPhase, State.request, Function.update_self, hnone, BranchOk]
      exact ⟨hfin', hval, hl, hled⟩
    · change Function.update s.gates j true k = true
      by_cases hkj : k = j <;> simp [hkj, hk]
    · by_cases hkj : k = j
      · exact Or.inr ⟨hled, l, hl, hkj ▸ hd⟩
      · left
        simpa [State.setPhase, State.request, hkj] using hk
  · rw [if_neg hd]
    refine h.branchStep (BranchStep.setPhase (by simp) rfl ?_)
    rw [hnone]
    exact ⟨hfin', hval, hl, hled⟩

theorem Inv.killed (h : Inv r as s) {v : T} {l : Fin r.branches.length} {j : ℕ}
    (hp : s.phases i = .killing v l j) :
    Inv r (as ++ [.kill i]) (s.setPhase i (.recording (.ok v))) := by
  have hi := h.branch i
  have hnone := h.slot_eq_none (i := i) (by simp [hp]) (by simp [hp])
  rw [hp, hnone] at hi
  obtain ⟨hfin, hval, -, hled⟩ := hi
  refine h.branchStep (BranchStep.setPhase (by simp) rfl ?_)
  rw [hnone]
  exact ⟨List.mem_append_left _ hfin, hval, hled⟩

theorem Inv.record (h : Inv r as s) {entry : Entry T} (hp : s.phases i = .recording entry) :
    Inv r (as ++ [.record i]) ((s.record i entry).setPhase i (.scanning 0)) := by
  have hi := h.branch i
  have hnone := h.slot_eq_none (i := i) (by simp [hp]) (by simp [hp])
  rw [hp, hnone] at hi
  refine h.branchStep (i := i) ⟨fun k hk => ?_, ?_, rfl, rfl, fun k hk => hk,
    fun k hk => Or.inl hk, Or.inl ⟨rfl, rfl⟩⟩
  · exact ⟨Function.update_of_ne hk _ _, Function.update_of_ne hk _ _, by simp⟩
  · simpa [State.setPhase, State.record, BranchOk] using hi

/-- A scanning thread keeps its entry, wherever it goes from there. -/
theorem Inv.scan (h : Inv r as s) {j : ℕ} (hp : s.phases i = .scanning j)
    {p : Phase T r.branches.length} (hnext : p = .done ∨ ∃ k, p = .scanning k) :
    Inv r (as ++ [.scan i]) (s.setPhase i p) := by
  have hi := h.branch i
  refine h.branchStep (BranchStep.setPhase (by simp) rfl ?_)
  cases hsl : s.slots i with
  | none => simp [BranchOk, hp, hsl] at hi
  | some e =>
    rw [hp, hsl] at hi
    have he : EntryOk r i (.finish i ∈ as ++ [.scan i]) (s.gates i)
        s.decision.leader.isSome e := by
      simpa [BranchOk] using hi
    rcases hnext with rfl | ⟨k, rfl⟩ <;> exact he

theorem Inv.move (h : Inv r as s) {a : Action r.branches.length} {t : State T r.branches.length}
    (hmove : Move r s i a t) : Inv r (as ++ [a]) t := by
  cases hmove with
  | spawn hp => exact h.spawn hp
  | fold hp =>
    have hi := h.branch i
    simp [BranchOk, hp] at hi
  | finish hp => exact h.finish hp
  | drain hp hg => exact h.drain hp hg
  | lock hp hacc hleader => exact h.lock hp hacc hleader
  | refuse hp hnot => exact h.refuse hp hnot
  | kill hp => exact h.kill hp
  | killed hp => exact h.killed hp
  | record hp => exact h.record hp
  | scan hp => exact h.scan hp (.inr ⟨_, rfl⟩)
  | missing hp => exact h.scan hp (.inl rfl)
  | release hp =>
    have hdone := h.scan hp (.inl rfl)
    exact { hdone with }

end Moves

/-- The watcher never requests a gate because the parent gate is never requested. -/
theorem Inv.step {as : List (Action r.branches.length)} {a : Action r.branches.length}
    {s t : State T r.branches.length} (h : Inv r as s) (ha : a ≠ .requestParent)
    (hstep : step r s a = some t) : Inv r (as ++ [a]) t := by
  cases a with
  | requestParent => exact absurd rfl ha
  | watcherPoll =>
    simp only [Race.step] at hstep
    split at hstep <;> cases hstep
    refine watcherStep h rfl (by simp) fun j => ?_
    split <;> simp
  | watcherCheck =>
    simp only [Race.step] at hstep
    split at hstep <;> cases hstep
    exact watcherStep h rfl (by simp) fun j => by simp [h.parent]
  | watcherRequest =>
    simp only [Race.step] at hstep
    split at hstep
    · rename_i j hw
      exact absurd hw (h.watcher j)
    · cases hstep
  | _ => exact h.move (step_move rfl hstep)

theorem Inv.run {as : List (Action r.branches.length)} {s : State T r.branches.length}
    (h : Run (StepOf (Race.step r)) (Race.init T r.branches.length) as s)
    (hparent : .requestParent ∉ as) : Inv r as s := by
  induction h with
  | nil => exact Inv.init r
  | snoc _ hstep ih =>
    simp only [List.mem_append, List.mem_singleton, not_or] at hparent
    exact (ih hparent.1).step (Ne.symm hparent.2) hstep

end FrankenSim.Race
