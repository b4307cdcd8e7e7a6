import FrankenSim.Race.Progress

/-!
# Reading the result off the slots

The decision loop walks the slots in index order with the winner so far. Its
rounds are described by a relation on the list of slots, from which the winner
of each mode and the list of reports follow; the schedule-independence theorem
then combines them with the invariant of the interleaved run.
-/
namespace FrankenSim.Race

open Library
variable {T : Type*} {r : Setup T}

/-- The rounds of the decision loop over the entries of some branches: the
winner before, the winner after, and the reports pushed. -/
inductive Tallied (r : Setup T) (leader : Option (Fin r.branches.length))
    (e : Fin r.branches.length → Entry T) :
    List (Fin r.branches.length) → Option (Fin r.branches.length × T) →
    Option (Fin r.branches.length × T) → List BranchReport → Prop
  | nil {w} : Tallied r leader e [] w w []
  | won {i is v w w' reps} : e i = .ok v → takes r.mode leader w i = true →
      Tallied r leader e is (some (i, v)) w' reps →
      Tallied r leader e (i :: is) w w' (⟨(r.branches.get i).name, i, .won⟩ :: reps)
  | outraced {i is v w w' reps} : e i = .ok v → takes r.mode leader w i = false →
      Tallied r leader e is w w' reps →
      Tallied r leader e (i :: is) w w' (⟨(r.branches.get i).name, i, .outraced⟩ :: reps)
  | failed {i is o w w' reps} : e i = .error o → Tallied r leader e is w w' reps →
      Tallied r leader e (i :: is) w w' (⟨(r.branches.get i).name, i, o⟩ :: reps)

theorem tally_foldlM {s : State T r.branches.length} {e : Fin r.branches.length → Entry T}
    (hfull : ∀ i, s.slots i = some (e i)) :
    ∀ (is : List (Fin r.branches.length)) (w : Option (Fin r.branches.length × T))
      (acc : List BranchReport), ∃ w' reps,
      is.foldlM (tally r s) (w, acc) = some (w', acc ++ reps) ∧
        Tallied r s.decision.leader e is w w' reps := by
  intro is
  induction is with
  | nil => exact fun w acc => ⟨w, [], by simp, .nil⟩
  | cons i is ih =>
    intro w acc
    cases he : e i with
    | error o =>
      obtain ⟨w', reps, hrun, ht⟩ := ih w (acc ++ [⟨(r.branches.get i).name, i, o⟩])
      refine ⟨w', _, ?_, .failed he ht⟩
      simpa [tally, hfull, he] using hrun
    | ok v =>
      cases htake : takes r.mode s.decision.leader w i with
      | true =>
        obtain ⟨w', reps, hrun, ht⟩ :=
          ih (some (i, v)) (acc ++ [⟨(r.branches.get i).name, i, .won⟩])
        refine ⟨w', _, ?_, .won he htake ht⟩
        simpa [tally, hfull, he, htake] using hrun
      | false =>
        obtain ⟨w', reps, hrun, ht⟩ := ih w (acc ++ [⟨(r.branches.get i).name, i, .outraced⟩])
        refine ⟨w', _, ?_, .outraced he htake ht⟩
        simpa [tally, hfull, he, htake] using hrun

namespace Tallied

variable {leader : Option (Fin r.branches.length)} {e : Fin r.branches.length → Entry T}
  {is : List (Fin r.branches.length)} {w w' : Option (Fin r.branches.length × T)}
  {reps : List BranchReport}

theorem winner_mem (h : Tallied r leader e is w w' reps) :
    w' = w ∨ ∃ i ∈ is, ∃ v, e i = .ok v ∧ w' = some (i, v) := by
  induction h with
  | nil => exact Or.inl rfl
  | @won i is v w w' reps he _ _ ih =>
    rcases ih with hw | ⟨j, hj, hv⟩
    · exact Or.inr ⟨i, List.mem_cons_self, v, he, hw⟩
    · exact Or.inr ⟨j, List.mem_cons_of_mem _ hj, hv⟩
  | outraced _ _ _ ih | failed _ _ ih =>
    rcases ih with hw | ⟨j, hj, hv⟩
    · exact Or.inl hw
    · exact Or.inr ⟨j, List.mem_cons_of_mem _ hj, hv⟩

theorem deterministic_keeps (hm : r.mode = .deterministic)
    (h : Tallied r leader e is w w' reps) (hw : w.isSome = true) : w' = w := by
  induction h with
  | nil => rfl
  | won _ ht _ _ => simp [takes, hm, Option.isSome_iff_ne_none.1 hw] at ht
  | outraced _ _ _ ih | failed _ _ ih => exact ih hw

/-- From no winner, the deterministic loop ends with the first entry that holds
a value. -/
theorem deterministic_first (hm : r.mode = .deterministic)
    (h : Tallied r leader e is none w' reps) {i : Fin r.branches.length} {v : T} (hi : i ∈ is)
    (hsorted : is.Pairwise (· < ·)) (he : e i = .ok v)
    (hlow : ∀ j < i, ∀ u, e j ≠ .ok u) : w' = some (i, v) := by
  generalize hw : (none : Option (Fin r.branches.length × T)) = w at h
  induction h with
  | nil => cases hi
  | @won j is u w w' reps hj _ ht _ =>
    rcases List.mem_cons.1 hi with rfl | hmem
    · obtain rfl : u = v := by simpa [hj] using he
      exact ht.deterministic_keeps hm rfl
    · exact absurd hj (hlow j ((List.pairwise_cons.1 hsorted).1 i hmem) u)
  | outraced _ htake _ _ =>
    subst hw
    simp [takes, hm] at htake
  | @failed j is o w w' reps hj _ ih =>
    rcases List.mem_cons.1 hi with rfl | hmem
    · simp [hj] at he
    · exact ih hmem (List.pairwise_cons.1 hsorted).2 hw

theorem fast_keeps (hm : r.mode = .fast) (h : Tallied r leader e is w w' reps)
    (hl : ∀ l, leader = some l → l ∉ is) : w' = w := by
  induction h with
  | nil => rfl
  | @won i is v w w' reps _ ht _ _ =>
    have hi : leader = some i := by simpa [takes, hm] using ht
    exact absurd List.mem_cons_self (hl i hi)
  | outraced _ _ _ ih | failed _ _ ih =>
    exact ih fun l hll hmem => hl l hll (List.mem_cons_of_mem _ hmem)

/-- The fast loop ends with the recorded leader. -/
theorem fast_leader (hm : r.mode = .fast) {l : Fin r.branches.length} {v : T}
    (h : Tallied r (some l) e is w w' reps) (hl : l ∈ is) (hnodup : is.Nodup)
    (he : e l = .ok v) : w' = some (l, v) := by
  induction h with
  | nil => cases hl
  | @won i is u w w' reps hi ht hrest _ =>
    obtain rfl : l = i := by simpa [takes, hm] using ht
    obtain rfl : u = v := by simpa [hi] using he
    refine hrest.fast_keeps hm ?_
    intro l' hl'
    obtain rfl : l = l' := by simpa using hl'
    exact (List.nodup_cons.1 hnodup).1
  | @outraced i is u w w' reps hi ht _ ih =>
    rcases List.mem_cons.1 hl with rfl | hmem
    · simp [takes, hm] at ht
    · exact ih hmem (List.nodup_cons.1 hnodup).2
  | @failed i is o w w' reps hi _ ih =>
    rcases List.mem_cons.1 hl with rfl | hmem
    · simp [hi] at he
    · exact ih hmem (List.nodup_cons.1 hnodup).2

/-- The winner chosen in a round stays the winner of the loop. -/
theorem keeps_taken (h : Tallied r leader e is w w' reps) {i : Fin r.branches.length} {v : T}
    (hw : w = some (i, v)) {w₀ : Option (Fin r.branches.length × T)}
    (ht : takes r.mode leader w₀ i = true) (hi : i ∉ is) : w' = w := by
  cases hm : r.mode with
  | deterministic => exact h.deterministic_keeps hm (by simp [hw])
  | fast =>
    refine h.fast_keeps hm fun l hl => ?_
    obtain rfl : i = l := by simpa [takes, hm, hl, eq_comm] using ht
    exact hi

end Tallied

/-- The outcome reported for an entry once the winner is known. -/
def verdict {n : ℕ} (winner : Option (Fin n)) (i : Fin n) : Entry T → BranchOutcome
  | .ok _ => if winner = some i then .won else .outraced
  | .error o => o

theorem Tallied.reports {leader : Option (Fin r.branches.length)}
    {e : Fin r.branches.length → Entry T} {is : List (Fin r.branches.length)}
    {w w' : Option (Fin r.branches.length × T)} {reps : List BranchReport}
    (h : Tallied r leader e is w w' reps) (hnodup : is.Nodup)
    (hfresh : ∀ x, w = some x → x.1 ∉ is) :
    reps = is.map fun i => ⟨(r.branches.get i).name, i, verdict (w'.map Prod.fst) i (e i)⟩ := by
  induction h with
  | nil => rfl
  | @won i is v w w' reps he ht hrest ih =>
    obtain ⟨hi, hnodup⟩ := List.nodup_cons.1 hnodup
    rw [List.map_cons, ← ih hnodup (by simp [hi])]
    simp [hrest.keeps_taken rfl ht hi, verdict, he]
  | @outraced i is v w w' reps he ht hrest ih =>
    obtain ⟨hi, hnodup⟩ := List.nodup_cons.1 hnodup
    have hne : w'.map Prod.fst ≠ some i := by
      intro hw
      obtain ⟨x, hx, rfl⟩ := Option.map_eq_some_iff.1 hw
      rcases hrest.winner_mem with hold | ⟨j, hj, u, -, hu⟩
      · exact hfresh x (hold ▸ hx) List.mem_cons_self
      · obtain rfl : (j, u) = x := by simpa [hu] using hx
        exact hi hj
    rw [List.map_cons, ← ih hnodup fun x hx hmem => hfresh x hx (List.mem_cons_of_mem _ hmem)]
    simp [verdict, he, hne]
  | @failed i is o w w' reps he hrest ih =>
    obtain ⟨hi, hnodup⟩ := List.nodup_cons.1 hnodup
    rw [List.map_cons, ← ih hnodup fun x hx hmem => hfresh x hx (List.mem_cons_of_mem _ hmem)]
    simp [verdict, he]

/-- The winner of a finished call, with its value. -/
def winnerOf : Except NoWinner (RaceRun T) → Option (ℕ × T)
  | .ok run => some (run.winner, run.value)
  | .error _ => none

def reportsOf : Except NoWinner (RaceRun T) → List BranchReport
  | .ok run => run.reports
  | .error e => e.reports

/-- What the call returns when every slot is filled. -/
theorem result_of_full {s : State T r.branches.length} {e : Fin r.branches.length → Entry T}
    (hfull : ∀ i, s.slots i = some (e i)) :
    ∃ out w, result r s = some out ∧ winnerOf out = w.map (fun x => (x.1.val, x.2)) ∧
      Tallied r s.decision.leader e (List.finRange r.branches.length) none w (reportsOf out) := by
  by_cases hn : r.branches.length = 0
  · refine ⟨.error ⟨[], r.mode.name⟩, none, by simp [result, hn], rfl, ?_⟩
    have hempty : List.finRange r.branches.length = [] := by simp [← List.length_eq_zero_iff, hn]
    rw [hempty]
    exact .nil
  · obtain ⟨w, reps, hrun, ht⟩ := tally_foldlM hfull (List.finRange r.branches.length) none []
    simp only [result, hn, if_false, hrun]
    cases w with
    | none => exact ⟨_, none, rfl, rfl, by simpa [reportsOf] using ht⟩
    | some x => exact ⟨_, some x, rfl, rfl, by simpa [reportsOf] using ht⟩

/-- No branch below `w` has an accepted natural value. -/
def LowestAccepted (r : Setup T) (w : Fin r.branches.length) (v : T) : Prop :=
  AcceptedValue r w v ∧ ∀ j < w, ¬ Accepted r j

theorem exists_lowestAccepted {i : Fin r.branches.length} (hi : Accepted r i) :
    ∃ w v, LowestAccepted r w v := by
  induction i using WellFoundedLT.induction with
  | ind i ih =>
    by_cases h : ∃ j < i, Accepted r j
    · obtain ⟨j, hj, hacc⟩ := h
      exact ih j hj hacc
    · obtain ⟨v, hv⟩ := hi
      exact ⟨i, v, hv, fun j hj hacc => h ⟨j, hj, hacc⟩⟩

section Joined

variable {as : List (Action r.branches.length)} {s : State T r.branches.length}

theorem Inv.low_gate (h : Inv r as s) (hm : r.mode = .deterministic)
    {w j : Fin r.branches.length} {v : T} (hw : LowestAccepted r w v) (hj : j ≤ w) :
    s.gates j = false := by
  by_contra hg
  obtain ⟨-, l, hl, hdoom⟩ := h.gate j (by simpa using hg)
  have hlj : l < j := by simpa [doomed, hm] using hdoom
  exact hw.2 l (hlj.trans_le hj) hl

theorem Inv.entries (h : Inv r as s) (hdone : Joined s) :
    ∃ e : Fin r.branches.length → Entry T, ∀ i, s.slots i = some (e i) ∧
      EntryOk r i (.finish i ∈ as) (s.gates i) s.decision.leader.isSome (e i) := by
  have hall : ∀ i, ∃ entry, s.slots i = some entry ∧
      EntryOk r i (.finish i ∈ as) (s.gates i) s.decision.leader.isSome entry := by
    intro i
    have hi := h.branch i
    rw [hdone.1 i] at hi
    cases hsl : s.slots i with
    | none => simp [BranchOk, hsl] at hi
    | some entry => exact ⟨entry, rfl, by simpa [hsl, BranchOk] using hi⟩
  choose e he using hall
  exact ⟨e, he⟩

theorem EntryOk.value {i : Fin r.branches.length} {fin led : Prop} {g : Bool} {e : Entry T}
    {v : T} (h : EntryOk r i fin g led e) (hv : AcceptedValue r i v) (hf : fin ∨ g = false) :
    e = .ok v := by
  cases e with
  | ok u =>
    have : BodyResult.value u = .value v := h.2.1.1.symm.trans hv.1
    cases this
    rfl
  | error o =>
    rcases h with ⟨hnf, -, hg⟩ | ⟨hna, -⟩
    · rcases hf with hf | hf
      · exact absurd hf hnf
      · simp [hf] at hg
    · exact absurd ⟨v, hv⟩ hna

/-- Only the winner's row says `Won`. -/
theorem EntryOk.won_iff {i l : Fin r.branches.length} {fin led : Prop} {g : Bool}
    {e : Fin r.branches.length → Entry T} (h : EntryOk r i fin g led (e i))
    (hl : ∃ v, e l = .ok v) : verdict (some l) i (e i) = .won ↔ i = l := by
  cases he : e i with
  | ok v => simp [verdict, eq_comm]
  | error o =>
    rw [he] at h
    have ho : o ≠ .won := by
      rcases h with ⟨-, rfl, -⟩ | ⟨-, rfl⟩
      · simp
      · cases (r.branches.get i).natural <;> simp [refusalEntry]
    have hil : i ≠ l := by
      rintro rfl
      obtain ⟨v, hv⟩ := hl
      simp [he] at hv
    simp [verdict, ho, hil]

/-- Under the deterministic rule the winner is the lowest accepted branch. -/
theorem Inv.deterministic_winner (h : Inv r as s) (hm : r.mode = .deterministic)
    {e : Fin r.branches.length → Entry T}
    (he : ∀ i, EntryOk r i (.finish i ∈ as) (s.gates i) s.decision.leader.isSome (e i))
    {w' : Option (Fin r.branches.length × T)} {reps : List BranchReport}
    (ht : Tallied r s.decision.leader e (List.finRange r.branches.length) none w' reps)
    {w : Fin r.branches.length} {v : T} (hw : LowestAccepted r w v) : w' = some (w, v) := by
  refine ht.deterministic_first hm (List.mem_finRange w) (List.pairwise_lt_finRange _)
    ((he w).value hw.1 (Or.inr (h.low_gate hm hw le_rfl))) fun j hj u hu => ?_
  have hj' := he j
  rw [hu] at hj'
  exact hw.2 j hj ⟨u, hj'.2.1⟩

/-- Under the fast rule an accepted branch makes somebody take the lock, and the
first to do so wins. -/
theorem Inv.fast_winner (h : Inv r as s) (hm : r.mode = .fast)
    {e : Fin r.branches.length → Entry T}
    (he : ∀ i, EntryOk r i (.finish i ∈ as) (s.gates i) s.decision.leader.isSome (e i))
    {w' : Option (Fin r.branches.length × T)} {reps : List BranchReport}
    (ht : Tallied r s.decision.leader e (List.finRange r.branches.length) none w' reps)
    {l : Fin r.branches.length} (hl : firstLock as = some l) :
    ∃ v, AcceptedValue r l v ∧ w' = some (l, v) := by
  have hlead : s.decision.leader = some l := (h.fast hm).trans hl
  obtain ⟨⟨v, hv⟩, hfin⟩ := h.leader l hlead
  rw [hlead] at ht
  exact ⟨v, hv, ht.fast_leader hm (List.mem_finRange l) (List.nodup_finRange _)
    ((he l).value hv (Or.inl hfin))⟩

theorem Inv.accepted_locks (h : Inv r as s) {e : Fin r.branches.length → Entry T}
    (he : ∀ i, EntryOk r i (.finish i ∈ as) (s.gates i) s.decision.leader.isSome (e i))
    {i : Fin r.branches.length} (hi : Accepted r i) : (firstLock as).isSome := by
  obtain ⟨v, hv⟩ := hi
  rw [← h.first]
  cases hg : s.gates i with
  | true => exact (h.gate i hg).1
  | false =>
    have hi := he i
    rw [hi.value hv (Or.inr hg)] at hi
    exact hi.2.2

theorem Inv.winner_accepted {e : Fin r.branches.length → Entry T}
    (he : ∀ i, EntryOk r i (.finish i ∈ as) (s.gates i) s.decision.leader.isSome (e i))
    {w' : Option (Fin r.branches.length × T)} {reps : List BranchReport}
    (ht : Tallied r s.decision.leader e (List.finRange r.branches.length) none w' reps)
    {x : Fin r.branches.length × T} (hx : w' = some x) : AcceptedValue r x.1 x.2 := by
  rcases ht.winner_mem with hn | ⟨i, -, v, hi, hv⟩
  · simp [hx] at hn
  · obtain rfl : x = (i, v) := by simpa [hx] using hv
    have hok := he i
    rw [hi] at hok
    exact hok.2.1

end Joined

/-- What the call returns after the join, with the entries it was decided from. -/
theorem Inv.joined_result {as : List (Action r.branches.length)}
    {s : State T r.branches.length} (h : Inv r as s) (hdone : Joined s) :
    ∃ out w' e, result r s = some out ∧ winnerOf out = w'.map (fun x => (x.1.val, x.2)) ∧
      Tallied r s.decision.leader e (List.finRange r.branches.length) none w' (reportsOf out) ∧
      ∀ i, EntryOk r i (.finish i ∈ as) (s.gates i) s.decision.leader.isSome (e i) := by
  obtain ⟨e, he⟩ := h.entries hdone
  obtain ⟨out, w', hout, hwin, ht⟩ := result_of_full fun i => (he i).1
  exact ⟨out, w', e, hout, hwin, ht, fun i => (he i).2⟩

theorem Inv.deterministic_result {as : List (Action r.branches.length)}
    {s : State T r.branches.length} (h : Inv r as s) (hm : r.mode = .deterministic)
    {e : Fin r.branches.length → Entry T}
    (he : ∀ i, EntryOk r i (.finish i ∈ as) (s.gates i) s.decision.leader.isSome (e i))
    {w' : Option (Fin r.branches.length × T)} {reps : List BranchReport}
    (ht : Tallied r s.decision.leader e (List.finRange r.branches.length) none w' reps) :
    (∀ w v, LowestAccepted r w v → w' = some (w, v)) ∧
      (w' = none ↔ ∀ i, ¬ Accepted r i) := by
  refine ⟨fun w v hw => h.deterministic_winner hm he ht hw, fun hnone i hi => ?_, fun hno => ?_⟩
  · obtain ⟨w, v, hw⟩ := exists_lowestAccepted hi
    simp [h.deterministic_winner hm he ht hw] at hnone
  · cases hw : w' with
    | none => rfl
    | some x => exact absurd ⟨x.2, Inv.winner_accepted he ht hw⟩ (hno x.1)

/-- For every interleaving in which the parent gate stays shut, the race drains, and its result
does not depend on the schedule. -/
theorem race_schedule_independent {as : List (Action r.branches.length)}
    {s : State T r.branches.length}
    (hrun : Run (StepOf (step r)) (init T r.branches.length) as s)
    (hparent : .requestParent ∉ as) :
    (r.branches ≠ [] → Drains r as s) ∧
    (r.mode = .deterministic → ∀ w v, LowestAccepted r w v → ∀ j ≤ w, s.gates j = false) ∧
    (Joined s → ∃ out, result r s = some out ∧
      (r.mode = .deterministic →
        (∀ w v, LowestAccepted r w v → winnerOf out = some (w.val, v)) ∧
        (winnerOf out = none ↔ ∀ i, ¬ Accepted r i)) ∧
      (r.mode = .fast → (∃ i, Accepted r i) →
        ∃ w v, firstLock as = some w ∧ AcceptedValue r w v ∧ winnerOf out = some (w.val, v) ∧
          ∀ report ∈ reportsOf out, report.outcome = .won ↔ report.index = w) ∧
      (reportsOf out).map BranchReport.name = r.branches.map RaceBranch.name ∧
      (reportsOf out).map BranchReport.index = List.range r.branches.length ∧
      ∀ i v, .finish i ∈ as → AcceptedValue r i v → ∀ report ∈ reportsOf out,
        report.index = i → report.outcome = .won ∨ report.outcome = .outraced) := by
  have hinv := Inv.run hrun hparent
  refine ⟨fun hr => drains_of_run hr hrun hparent, fun hm w v hw j hj => hinv.low_gate hm hw hj,
    fun hdone => ?_⟩
  obtain ⟨out, w', e, hout, hwin, ht, he⟩ := hinv.joined_result hdone
  have hreps := ht.reports (List.nodup_finRange _) (by simp)
  refine ⟨out, hout, fun hm => ?_, fun hm ⟨i, hi⟩ => ?_, ?_, ?_, ?_⟩
  · obtain ⟨hlow, hnone⟩ := hinv.deterministic_result hm he ht
    exact ⟨fun w v hw => by simp [hwin, hlow w v hw], by simpa [hwin] using hnone⟩
  · obtain ⟨l, hl⟩ := Option.isSome_iff_exists.1 (hinv.accepted_locks he hi)
    obtain ⟨v, hv, hw⟩ := hinv.fast_winner hm he ht hl
    refine ⟨l, v, hl, hv, by simp [hwin, hw], fun report hrep => ?_⟩
    rw [hreps] at hrep
    obtain ⟨j, -, rfl⟩ := List.mem_map.1 hrep
    have hlv : e l = .ok v :=
      (he l).value hv (Or.inl (hinv.leader l ((hinv.fast hm).trans hl)).2)
    rw [hw]
    change verdict (some l) j (e j) = .won ↔ j.val = l.val
    rw [(he j).won_iff ⟨v, hlv⟩, Fin.ext_iff]
  · rw [hreps, List.map_map]
    exact List.ext_getElem (by simp) (by simp)
  · rw [hreps, List.map_map]
    exact List.ext_getElem (by simp) (by simp)
  · intro i v hfin hv report hrep hidx
    rw [hreps] at hrep
    obtain ⟨j, -, rfl⟩ := List.mem_map.1 hrep
    obtain rfl : j = i := Fin.ext hidx
    simp only [(he j).value hv (Or.inl hfin), verdict]
    split
    · exact Or.inl rfl
    · exact Or.inr rfl

/-- Two accepted values. -/
def duel (mode : ExecMode) : Setup ℕ where
  branches := [⟨"delaunay", .value 7⟩, ⟨"octree", .value 3⟩]
  accept v := v < 10
  mode

/-- The higher branch locks first, and the lower one displaces it. -/
def duelActions : List (Action (duel .deterministic).branches.length) :=
  let high : Fin (duel .deterministic).branches.length := ⟨1, by decide⟩
  let low : Fin (duel .deterministic).branches.length := ⟨0, by decide⟩
  [.spawn low, .spawn high, .finish high, .lock high, .finish low, .lock low] ++
    List.replicate 3 (.kill high) ++ List.replicate 3 (.kill low) ++ [.record high, .scan high] ++
    [.record low, .scan low, .scan low, .scan low, .watcherPoll]

/-- The higher branch locks first, and the lower one notices its gate. -/
def fastActions : List (Action (duel .fast).branches.length) :=
  let high : Fin (duel .fast).branches.length := ⟨1, by decide⟩
  let low : Fin (duel .fast).branches.length := ⟨0, by decide⟩
  [.spawn low, .spawn high, .watcherPoll, .finish high, .lock high] ++
    List.replicate 3 (.kill high) ++ [.drain low, .refuse low, .record low, .scan low, .scan low,
    .record high, .watcherCheck, .scan high, .scan high, .scan high, .watcherPoll]

theorem race_schedule_independent_duel :
    (∃ s out, Run (StepOf (step (duel .deterministic))) (init ℕ _) duelActions s ∧ Joined s ∧
      s.gates ⟨0, by decide⟩ = false ∧ result (duel .deterministic) s = some out ∧
      winnerOf out = some (0, 7)) ∧
    ∃ s out, Run (StepOf (step (duel .fast))) (init ℕ _) fastActions s ∧ Joined s ∧
      Drains (duel .fast) fastActions s ∧ result (duel .fast) s = some out ∧
      winnerOf out = some (1, 3) ∧
      ∀ report ∈ reportsOf out, report.outcome = .won ↔ report.index = 1 := by
  constructor
  · have hsome : (runList (step (duel .deterministic)) (init ℕ _) duelActions).isSome := by decide
    obtain ⟨s, hs⟩ := Option.isSome_iff_exists.1 hsome
    have hrun := run_of_runList hs
    have hdone : Joined s := by
      have hj : ∀ t ∈ runList (step (duel .deterministic)) (init ℕ _) duelActions,
          (∀ i, t.phases i = .done) ∧ t.watcher = .returned := by decide
      exact hj s hs
    obtain ⟨-, hgates, hresult⟩ := race_schedule_independent hrun (by decide)
    obtain ⟨out, hout, hdet, -⟩ := hresult hdone
    have hlow : LowestAccepted (duel .deterministic) ⟨0, by decide⟩ 7 :=
      ⟨⟨rfl, rfl⟩, fun j hj => absurd hj (Nat.not_lt_zero _)⟩
    exact ⟨s, out, hrun, hdone, hgates rfl _ _ hlow _ le_rfl, hout, (hdet rfl).1 _ _ hlow⟩
  · have hsome : (runList (step (duel .fast)) (init ℕ _) fastActions).isSome := by decide
    obtain ⟨s, hs⟩ := Option.isSome_iff_exists.1 hsome
    have hrun := run_of_runList hs
    have hdone : Joined s := by
      have hj : ∀ t ∈ runList (step (duel .fast)) (init ℕ _) fastActions,
          (∀ i, t.phases i = .done) ∧ t.watcher = .returned := by decide
      exact hj s hs
    obtain ⟨hdrains, -, hresult⟩ := race_schedule_independent hrun (by decide)
    obtain ⟨out, hout, -, hfast, -⟩ := hresult hdone
    have haccepted : Accepted (duel .fast) ⟨1, by decide⟩ := ⟨3, rfl, rfl⟩
    obtain ⟨w, v, hfirst, hvalue, hwinner, hwon⟩ := hfast rfl ⟨_, haccepted⟩
    have hw : firstLock fastActions = some ⟨1, by decide⟩ := rfl
    obtain rfl := Option.some.inj (hfirst.symm.trans hw)
    cases hvalue.1
    exact ⟨s, out, hrun, hdone, hdrains (by decide), hout, hwinner, hwon⟩

end FrankenSim.Race
