import FrankenSim.Race.Victory

/-!
# Every race drains

A branch thread is never blocked and takes a bounded number of steps, so all branches end.
The branch that records last finds every slot filled and releases the watcher, which then
returns within a bounded number of steps as well.
-/
namespace FrankenSim.Race

open Library
variable {T : Type*} {n : ℕ}

def Action.ofBranch (a : Action n) : Bool := a.thread.isSome

def Action.ofWatcher : Action n → Bool
  | .watcherPoll | .watcherCheck | .watcherRequest => true
  | _ => false

/-- A bound on the steps that a branch thread still takes. -/
def Phase.work : Phase T n → ℕ
  | .idle => 2 * n + 7
  | .folding => 2 * n + 6
  | .running => 2 * n + 5
  | .returned _ => 2 * n + 4
  | .killing _ _ j => n - j + n + 3
  | .recording _ => n + 2
  | .scanning j => n - j + 1
  | .done => 0

def State.work (s : State T n) : ℕ := ∑ i, (s.phases i).work

/-- A bound on the steps of the watcher once the race is done. -/
def Watcher.work (n : ℕ) : Watcher → ℕ
  | .polling => 1
  | .checking => n + 2
  | .requesting j => n - j + 1
  | .returned => 0

theorem State.work_setPhase (s : State T n) {i : Fin n} {p : Phase T n}
    (hp : p.work < (s.phases i).work) : (s.setPhase i p).work < s.work := by
  refine Finset.sum_lt_sum (fun j _ => ?_) ⟨i, Finset.mem_univ i, ?_⟩
  · by_cases hj : j = i
    · subst hj
      simpa [State.setPhase] using hp.le
    · simp [State.setPhase, hj]
  · simpa [State.setPhase] using hp

variable {r : Setup T} {as : List (Action r.branches.length)} {s t : State T r.branches.length}

/-- A step of a branch thread moves that thread to a phase with less work. -/
theorem Move.work {i : Fin r.branches.length} {a : Action r.branches.length}
    (h : Move r s i a t) :
    ∃ u p, t = State.setPhase u i p ∧ u.phases = s.phases ∧ p.work < (s.phases i).work := by
  cases h with
  | spawn hp =>
    refine ⟨_, _, rfl, rfl, ?_⟩
    rw [hp]
    split <;> simp [Phase.work]
  | @kill v l j hp =>
    refine ⟨_, _, rfl, by split <;> rfl, ?_⟩
    simp only [hp, Phase.work]
    omega
  | fold hp | finish hp | drain hp | lock hp | refuse hp | killed hp | record hp | scan hp
  | missing hp | release hp =>
    refine ⟨_, _, rfl, rfl, ?_⟩
    simp only [hp, Phase.work]
    omega

/-- The other steps leave the branch threads and their slots alone. -/
theorem step_other {a : Action r.branches.length} (ha : a.thread = none)
    (h : step r s a = some t) :
    t.phases = s.phases ∧ t.slots = s.slots ∧ t.raceDone = s.raceDone := by
  cases a with
  | requestParent =>
    cases h
    exact ⟨rfl, rfl, rfl⟩
  | watcherPoll | watcherCheck =>
    simp only [step] at h
    split at h <;> cases h
    exact ⟨rfl, rfl, rfl⟩
  | watcherRequest =>
    simp only [step] at h
    split at h
    · split_ifs at h <;> cases h <;> exact ⟨rfl, rfl, rfl⟩
    · cases h
  | _ => cases ha

/-- Every step of a branch thread uses up work, and no other step adds any. -/
theorem work_step {a : Action r.branches.length} (h : step r s a = some t) :
    (if a.ofBranch then 1 else 0) + t.work ≤ s.work := by
  unfold Action.ofBranch
  cases ha : a.thread with
  | none =>
    have hwork : t.work = s.work := by simp [State.work, (step_other ha h).1]
    simp [hwork]
  | some i =>
    obtain ⟨u, p, rfl, hu, hlt⟩ := (step_move ha h).work
    have hwork : u.work = s.work := by simp [State.work, hu]
    have hless := u.work_setPhase (by rwa [hu])
    rw [hwork] at hless
    simp only [Option.isSome_some, if_true]
    omega

/-- A branch thread that has not ended can take a step. -/
theorem thread_enabled (r : Setup T) (s : State T r.branches.length)
    {i : Fin r.branches.length} (hi : s.phases i ≠ .done) :
    ∃ a, a.thread = some i ∧ (step r s a).isSome = true := by
  cases hp : s.phases i with
  | done => exact absurd hp hi
  | idle => exact ⟨.spawn i, rfl, by simp [step, hp]⟩
  | folding => exact ⟨.fold i, rfl, by simp [step, hp]⟩
  | running => exact ⟨.finish i, rfl, by simp [step, hp]⟩
  | returned result =>
    cases result with
    | value v =>
      by_cases hacc : r.accept v
      · exact ⟨.lock i, rfl, by simp [step, hp, hacc]⟩
      · exact ⟨.refuse i, rfl, by simp [step, hp, hacc]⟩
    | cancelled => exact ⟨.refuse i, rfl, by simp [step, hp]⟩
    | panicked payload => exact ⟨.refuse i, rfl, by simp [step, hp]⟩
  | killing v l j =>
    refine ⟨.kill i, rfl, ?_⟩
    simp only [step, hp]
    split <;> rfl
  | recording entry => exact ⟨.record i, rfl, by simp [step, hp]⟩
  | scanning j =>
    refine ⟨.scan i, rfl, ?_⟩
    simp only [step, hp]
    split_ifs <;> rfl

/-- A watcher that has not returned can take a step. -/
theorem watcher_enabled (r : Setup T) (s : State T r.branches.length)
    (hs : s.watcher ≠ .returned) : ∃ a, a.ofWatcher = true ∧ (step r s a).isSome = true := by
  cases hw : s.watcher with
  | returned => exact absurd hw hs
  | polling => exact ⟨.watcherPoll, rfl, by simp [step, hw]⟩
  | checking => exact ⟨.watcherCheck, rfl, by simp [step, hw]⟩
  | requesting j =>
    refine ⟨.watcherRequest, rfl, ?_⟩
    simp only [step, hw]
    split <;> rfl

/-! ### The release of the watcher -/

/-- Once all slots are filled, the race is done or a thread still scans them. -/
def Released (s : State T n) : Prop :=
  (∀ i, (s.slots i).isSome = true) → s.raceDone = true ∨ ∃ i j, s.phases i = .scanning j

/-- A thread that was not scanning moves on. -/
theorem Released.setPhase (h : Released s) {i : Fin r.branches.length}
    {u : State T r.branches.length} {p : Phase T r.branches.length}
    (hi : ∀ j, s.phases i ≠ .scanning j) (hphases : u.phases = s.phases)
    (hslots : u.slots = s.slots) (hdone : u.raceDone = s.raceDone) :
    Released (u.setPhase i p) := by
  intro hfull
  have hfull' : ∀ j, (s.slots j).isSome = true := fun j => hslots ▸ hfull j
  rcases h hfull' with hd | ⟨k, j, hk⟩
  · exact .inl (hdone.trans hd)
  · have hne : k ≠ i := by
      rintro rfl
      exact hi j hk
    exact .inr ⟨k, j, by simpa [State.setPhase, hne, hphases] using hk⟩

theorem Released.move (h : Released s) {i : Fin r.branches.length}
    {a : Action r.branches.length} (hmove : Move r s i a t) : Released t := by
  cases hmove with
  | spawn hp | fold hp | finish hp | drain hp | lock hp | refuse hp | killed hp =>
    exact h.setPhase (by simp [hp]) rfl rfl rfl
  | @kill v l j hp =>
    split <;> exact h.setPhase (by simp [hp]) rfl rfl rfl
  | record hp => exact fun _ => .inr ⟨i, 0, by simp [State.setPhase]⟩
  | @scan j hp => exact fun _ => .inr ⟨i, j + 1, by simp [State.setPhase]⟩
  | @missing j hp hnone =>
    intro hfull
    have hj : (s.slots j).isSome = true := hfull j
    rw [hnone] at hj
    cases hj
  | release => exact fun _ => .inl rfl

theorem Released.step (h : Released s) {a : Action r.branches.length}
    (hstep : step r s a = some t) : Released t := by
  cases ha : a.thread with
  | some i => exact h.move (step_move ha hstep)
  | none =>
    obtain ⟨hphases, hslots, hdone⟩ := step_other ha hstep
    unfold Released
    rw [hphases, hslots, hdone]
    exact h

theorem Released.run (hr : r.branches ≠ [])
    (h : Run (StepOf (Race.step r)) (init T r.branches.length) as s) : Released s := by
  refine h.invariant (P := Released) (fun hfull => ?_) fun t a u ht hstep => ht.step hstep
  have hsome := hfull ⟨0, List.length_pos_iff.2 hr⟩
  cases hsome

theorem Move.watcher {i : Fin r.branches.length} {a : Action r.branches.length}
    (h : Move r s i a t) :
    t.watcher = s.watcher ∧ (s.raceDone = true → t.raceDone = true) := by
  cases h with
  | kill hp => split <;> exact ⟨rfl, id⟩
  | release => exact ⟨rfl, fun _ => rfl⟩
  | _ => exact ⟨rfl, id⟩

/-- The watcher returns within a bounded number of steps once the race is done. -/
theorem watcher_step {a : Action r.branches.length} (hdone : s.raceDone = true)
    (h : step r s a = some t) : t.raceDone = true ∧
      (if a.ofWatcher then 1 else 0) + t.watcher.work r.branches.length ≤
        s.watcher.work r.branches.length := by
  cases a with
  | requestParent =>
    cases h
    exact ⟨hdone, by simp [Action.ofWatcher]⟩
  | watcherPoll =>
    simp only [step] at h
    split at h <;> cases h
    rename_i hw
    exact ⟨hdone, by simp [Action.ofWatcher, hdone, hw, Watcher.work]⟩
  | watcherCheck =>
    simp only [step] at h
    split at h <;> cases h
    rename_i hw
    refine ⟨hdone, ?_⟩
    simp only [Action.ofWatcher, hw, if_true]
    split <;> simp only [Watcher.work] <;> omega
  | watcherRequest =>
    simp only [step] at h
    split at h
    · rename_i j hw
      split_ifs at h with hj <;> cases h
      · refine ⟨hdone, ?_⟩
        simp [Action.ofWatcher, hw, Watcher.work]
        omega
      · exact ⟨hdone, by simp [Action.ofWatcher, hw, Watcher.work]⟩
    · cases h
  | _ =>
    obtain ⟨hwatcher, hkept⟩ := (step_move rfl h).watcher
    exact ⟨hkept hdone, by simp [Action.ofWatcher, hwatcher]⟩

/-! ### Draining -/

/-- What every state of a race promises about its completion. The branch threads are never
blocked and take a bounded number of steps; the last of them releases the watcher, which is
never blocked either and then takes a bounded number of steps; and the scope can be joined. -/
structure Drains (r : Setup T) (as : List (Action r.branches.length))
    (s : State T r.branches.length) : Prop where
  threads : ∀ i, s.phases i ≠ .done → ∃ a, a.thread = some i ∧ (step r s a).isSome = true
  threadSteps : as.countP Action.ofBranch ≤ r.branches.length * (2 * r.branches.length + 7)
  released : (∀ i, s.phases i = .done) → s.raceDone = true
  watcher : s.watcher ≠ .returned → ∃ a, a.ofWatcher = true ∧ (step r s a).isSome = true
  watcherSteps : s.raceDone = true → ∀ later t, Run (StepOf (step r)) s later t →
    later.countP Action.ofWatcher ≤ r.branches.length + 2
  joins : ∃ later t, Run (StepOf (step r)) s later t ∧ .requestParent ∉ later ∧ Joined t

theorem Inv.released (h : Inv r as s) (hs : Released s) (hdone : ∀ i, s.phases i = .done) :
    s.raceDone = true := by
  have hfull : ∀ i, (s.slots i).isSome = true := by
    intro i
    have hi := h.branch i
    rw [hdone i] at hi
    cases hsl : s.slots i with
    | none => simp [BranchOk, hsl] at hi
    | some e => rfl
  rcases hs hfull with hd | ⟨i, j, hi⟩
  · exact hd
  · rw [hdone i] at hi
    cases hi

theorem threadSteps_le (h : Run (StepOf (step r)) (init T r.branches.length) as s) :
    as.countP Action.ofBranch ≤ r.branches.length * (2 * r.branches.length + 7) := by
  have hbound := h.countP_add_le (P := fun _ => True) (μ := State.work) (p := Action.ofBranch)
    trivial (fun _ _ _ _ _ => trivial) fun _ _ _ _ hstep => work_step hstep
  have hstart : (init T r.branches.length).work =
      r.branches.length * (2 * r.branches.length + 7) := by
    simp [State.work, init, Phase.work]
  omega

theorem watcherSteps_le (hdone : s.raceDone = true) {later : List (Action r.branches.length)}
    (h : Run (StepOf (step r)) s later t) :
    later.countP Action.ofWatcher ≤ r.branches.length + 2 := by
  have hbound := h.countP_add_le (P := fun s => s.raceDone = true)
    (μ := fun s => s.watcher.work r.branches.length) (p := Action.ofWatcher) hdone
    (fun _ _ _ ht hstep => (watcher_step ht hstep).1)
    fun _ _ _ ht hstep => (watcher_step ht hstep).2
  have hstart : s.watcher.work r.branches.length ≤ r.branches.length + 2 := by
    cases s.watcher <;> simp only [Watcher.work] <;> omega
  omega

/-- A state that is not joined has a step of a thread or of the watcher that brings the join
closer. -/
theorem Inv.progress (h : Inv r as s) (hs : Released s) (hjoined : ¬Joined s) :
    ∃ a t, Race.step r s a = some t ∧ a ≠ .requestParent ∧
      t.work + t.watcher.work r.branches.length < s.work + s.watcher.work r.branches.length := by
  by_cases hall : ∀ i, s.phases i = .done
  · have hdone := h.released hs hall
    obtain ⟨a, ha, hsome⟩ := watcher_enabled r s fun hreturned => hjoined ⟨hall, hreturned⟩
    obtain ⟨t, hstep⟩ := Option.isSome_iff_exists.1 hsome
    refine ⟨a, t, hstep, ?_, ?_⟩
    · rintro rfl
      cases ha
    · have hwork := work_step hstep
      have hwatcher := (watcher_step hdone hstep).2
      rw [if_pos ha] at hwatcher
      omega
  · obtain ⟨i, hi⟩ := not_forall.1 hall
    obtain ⟨a, ha, hsome⟩ := thread_enabled r s hi
    obtain ⟨t, hstep⟩ := Option.isSome_iff_exists.1 hsome
    refine ⟨a, t, hstep, ?_, ?_⟩
    · rintro rfl
      cases ha
    · have hwork := work_step hstep
      rw [if_pos (show a.ofBranch = true by simp [Action.ofBranch, ha]),
        ← (step_move ha hstep).watcher.1] at *
      omega

theorem Inv.joins (h : Inv r as s) (hs : Released s) :
    ∃ later t, Run (StepOf (Race.step r)) s later t ∧ .requestParent ∉ later ∧ Joined t := by
  have hprogress : ∀ u, ((∃ as, Inv r as u) ∧ Released u) → ¬ Joined u →
      ∃ a v, Restrict (StepOf (Race.step r)) (fun _ a => a ≠ .requestParent) u a v ∧
        ((∃ as, Inv r as v) ∧ Released v) ∧
        v.work + v.watcher.work r.branches.length <
          u.work + u.watcher.work r.branches.length := by
    rintro u ⟨⟨as, hinv⟩, hreleased⟩ hjoined
    obtain ⟨a, t, hstep, ha, hlt⟩ := hinv.progress hreleased hjoined
    exact ⟨a, t, ⟨ha, hstep⟩, ⟨⟨_, hinv.step ha hstep⟩, hreleased.step hstep⟩, hlt⟩
  obtain ⟨t, ⟨later, hrun⟩, -, hjoined⟩ := Reachable.of_progress hprogress ⟨⟨as, h⟩, hs⟩
  refine ⟨later, t, hrun.mono fun _ _ _ hstep => hstep.2, fun hmem => ?_, hjoined⟩
  exact hrun.forall_label (p := fun a => a ≠ .requestParent) (fun _ _ _ hstep => hstep.1) _ hmem rfl

/-- Every state of a race without a parent request drains. -/
theorem drains_of_run (hr : r.branches ≠ [])
    (h : Run (StepOf (step r)) (init T r.branches.length) as s) (hparent : .requestParent ∉ as) :
    Drains r as s where
  threads _ := thread_enabled r s
  threadSteps := threadSteps_le h
  released := (Inv.run h hparent).released (.run hr h)
  watcher := watcher_enabled r s
  watcherSteps hdone _ _ := watcherSteps_le hdone
  joins := (Inv.run h hparent).joins (.run hr h)

end FrankenSim.Race
