import Mathlib.Tactic

/-!
# Loops that pause

One turn of a loop moves its state, and some turns count against a budget. A loop whose
budget is spent pauses; the next call continues from the state it left. A loop that finishes
does so in the same state under every sequence of positive budgets.
-/
namespace FrankenSim.Library

variable {σ ε : Type*}

/-- What one turn of a loop does; a cell counts against the budget. -/
inductive Turn (σ : Type*)
  | next (s : σ)
  | cell (s : σ)
  | complete (s : σ)
  | refused
  deriving DecidableEq, Repr

/-- How a call ends; the cells that it took. -/
inductive StepOutcome
  | advanced (cells : ℕ)
  | complete (cells : ℕ)
  | refused
  deriving DecidableEq, Repr

/-- The loop of one call, on fuel. -/
def turns (turn : σ → Except ε (Turn σ)) (endless : ε) (budget : ℕ) :
    ℕ → ℕ → σ → Except ε (σ × StepOutcome)
  | 0, _, _ => .error endless
  | fuel + 1, used, s =>
    if used < budget then do
      let t ← turn s
      match t with
      | .next s' => turns turn endless budget fuel used s'
      | .cell s' => turns turn endless budget fuel (used + 1) s'
      | .complete s' => .ok (s', .complete used)
      | .refused => .ok (s, .refused)
    else .ok (s, .advanced used)

/-- One call after the other, until an outcome is not `advanced`. -/
def calls (step : σ → ℕ → Except ε (σ × StepOutcome)) :
    List ℕ → σ → Except ε (σ × StepOutcome)
  | [], s => .ok (s, .advanced 0)
  | budget :: budgets, s => do
    let result ← step s budget
    match result with
    | (s', .advanced _) => calls step budgets s'
    | result => .ok result

/-- After this many turns the loop completes in that state. -/
inductive Finishes (turn : σ → Except ε (Turn σ)) (final : σ) : ℕ → σ → Prop
  | complete {s : σ} (h : turn s = .ok (.complete final)) : Finishes turn final 0 s
  | next {s s' : σ} {n : ℕ} (h : turn s = .ok (.next s')) (hrest : Finishes turn final n s') :
      Finishes turn final (n + 1) s
  | cell {s s' : σ} {n : ℕ} (h : turn s = .ok (.cell s')) (hrest : Finishes turn final n s') :
      Finishes turn final (n + 1) s

/-- A turn that keeps an invariant and goes down in a measure, or completes as it should. -/
def Turn.Descends (Inv Post : σ → Prop) (measure : σ → ℕ) (s : σ) : Turn σ → Prop
  | .next s' => Inv s' ∧ measure s' < measure s
  | .cell s' => Inv s' ∧ measure s' < measure s
  | .complete s' => Post s'
  | .refused => False

section Loop

variable {turn : σ → Except ε (Turn σ)} {endless : ε} {Inv Post : σ → Prop} {measure : σ → ℕ}

/-- A loop whose turns descend finishes, and the state it finishes in is as it should be. -/
theorem finishes_of_descends
    (hturn : ∀ s, Inv s → ∃ t, turn s = .ok t ∧ t.Descends Inv Post measure s) {s : σ}
    (hs : Inv s) : ∃ n final, Finishes turn final n s ∧ Post final := by
  induction hm : measure s using Nat.strong_induction_on generalizing s with
  | _ m ih =>
    obtain ⟨t, ht, hdescends⟩ := hturn s hs
    cases t with
    | next s' =>
      obtain ⟨hs', hlt⟩ := hdescends
      obtain ⟨n, final, hfinishes, hpost⟩ := ih (measure s') (by omega) hs' rfl
      exact ⟨n + 1, final, .next ht hfinishes, hpost⟩
    | cell s' =>
      obtain ⟨hs', hlt⟩ := hdescends
      obtain ⟨n, final, hfinishes, hpost⟩ := ih (measure s') (by omega) hs' rfl
      exact ⟨n + 1, final, .cell ht hfinishes, hpost⟩
    | complete s' => exact ⟨0, s', .complete ht, hdescends⟩
    | refused => exact hdescends.elim

/-- The measure bounds the turns. -/
theorem Finishes.le_measure
    (hturn : ∀ s, Inv s → ∃ t, turn s = .ok t ∧ t.Descends Inv Post measure s) {final s : σ}
    {n : ℕ} (h : Finishes turn final n s) (hs : Inv s) : n ≤ measure s := by
  induction h with
  | complete => exact Nat.zero_le _
  | next h _ ih =>
    obtain ⟨t, ht, hdescends⟩ := hturn _ hs
    rw [h, Except.ok.injEq] at ht
    subst ht
    have hrest := ih hdescends.1
    have hlt := hdescends.2
    omega
  | cell h _ ih =>
    obtain ⟨t, ht, hdescends⟩ := hturn _ hs
    rw [h, Except.ok.injEq] at ht
    subst ht
    have hrest := ih hdescends.1
    have hlt := hdescends.2
    omega

/-- What a call may leave behind of a loop that finishes: the final state, or a state of the
invariant with fewer turns to go. -/
def Progresses (turn : σ → Except ε (Turn σ)) (Inv : σ → Prop) (final : σ) (n : ℕ) :
    σ × StepOutcome → Prop
  | (s, .advanced _) => Inv s ∧ ∃ m < n, Finishes turn final m s
  | (s, .complete _) => s = final
  | (_, .refused) => False

theorem Progresses.mono {final : σ} {n m : ℕ} {result : σ × StepOutcome}
    (h : Progresses turn Inv final n result) (hnm : n ≤ m) :
    Progresses turn Inv final m result := by
  obtain ⟨s, outcome⟩ := result
  cases outcome with
  | advanced cells =>
    obtain ⟨hs, k, hk, hfinishes⟩ := h
    exact ⟨hs, k, by omega, hfinishes⟩
  | complete cells => exact h
  | refused => exact h

/-- A call leaves no more turns than there were, and fewer when its budget is positive. -/
theorem turns_progresses
    (hturn : ∀ s, Inv s → ∃ t, turn s = .ok t ∧ t.Descends Inv Post measure s)
    {final s : σ} {n : ℕ} (hfinishes : Finishes turn final n s) (budget : ℕ) :
    ∀ fuel used, n < fuel → Inv s → ∃ result, turns turn endless budget fuel used s = .ok result ∧
      Progresses turn Inv final (n + 1) result ∧
      (used < budget → Progresses turn Inv final n result) := by
  induction hfinishes with
  | @complete s h =>
    intro fuel used hfuel hs
    obtain ⟨fuel, rfl⟩ : ∃ k, fuel = k + 1 := ⟨fuel - 1, by omega⟩
    by_cases hused : used < budget
    · exact ⟨(final, .complete used), by simp [turns, hused, h, bind, Except.bind], rfl,
        fun _ => rfl⟩
    · exact ⟨(s, .advanced used), by simp [turns, hused], ⟨hs, 0, by omega, .complete h⟩,
        fun hlt => absurd hlt hused⟩
  | @next s s' n h hrest ih =>
    intro fuel used hfuel hs
    obtain ⟨fuel, rfl⟩ : ∃ k, fuel = k + 1 := ⟨fuel - 1, by omega⟩
    by_cases hused : used < budget
    · obtain ⟨t, ht, hdescends⟩ := hturn s hs
      rw [h, Except.ok.injEq] at ht
      subst ht
      obtain ⟨result, hresult, _, hless⟩ := ih fuel used (by omega) hdescends.1
      have hmono := (hless hused).mono (Nat.le_succ n)
      exact ⟨result, by simpa [turns, hused, h, bind, Except.bind] using hresult,
        hmono.mono (Nat.le_succ _), fun _ => hmono⟩
    · exact ⟨(s, .advanced used), by simp [turns, hused],
        ⟨hs, n + 1, by omega, .next h hrest⟩, fun hlt => absurd hlt hused⟩
  | @cell s s' n h hrest ih =>
    intro fuel used hfuel hs
    obtain ⟨fuel, rfl⟩ : ∃ k, fuel = k + 1 := ⟨fuel - 1, by omega⟩
    by_cases hused : used < budget
    · obtain ⟨t, ht, hdescends⟩ := hturn s hs
      rw [h, Except.ok.injEq] at ht
      subst ht
      obtain ⟨result, hresult, hsame, _⟩ := ih fuel (used + 1) (by omega) hdescends.1
      exact ⟨result, by simpa [turns, hused, h, bind, Except.bind] using hresult,
        hsame.mono (Nat.le_succ _), fun _ => hsame⟩
    · exact ⟨(s, .advanced used), by simp [turns, hused],
        ⟨hs, n + 1, by omega, .cell h hrest⟩, fun hlt => absurd hlt hused⟩

/-- A budget above the number of turns takes the loop to its end. -/
theorem turns_unlimited {final s : σ} {n : ℕ} (hfinishes : Finishes turn final n s)
    {budget : ℕ} : ∀ fuel used, n < fuel → used + n < budget →
      ∃ cells, turns turn endless budget fuel used s = .ok (final, .complete cells) := by
  induction hfinishes with
  | complete h =>
    intro fuel used hfuel hbudget
    obtain ⟨fuel, rfl⟩ : ∃ k, fuel = k + 1 := ⟨fuel - 1, by omega⟩
    have hused : used < budget := by omega
    exact ⟨used, by simp [turns, hused, h, bind, Except.bind]⟩
  | next h _ ih =>
    intro fuel used hfuel hbudget
    obtain ⟨fuel, rfl⟩ : ∃ k, fuel = k + 1 := ⟨fuel - 1, by omega⟩
    have hused : used < budget := by omega
    obtain ⟨cells, hcells⟩ := ih fuel used (by omega) (by omega)
    exact ⟨cells, by simpa [turns, hused, h, bind, Except.bind] using hcells⟩
  | cell h _ ih =>
    intro fuel used hfuel hbudget
    obtain ⟨fuel, rfl⟩ : ∃ k, fuel = k + 1 := ⟨fuel - 1, by omega⟩
    have hused : used < budget := by omega
    obtain ⟨cells, hcells⟩ := ih fuel (used + 1) (by omega) (by omega)
    exact ⟨cells, by simpa [turns, hused, h, bind, Except.bind] using hcells⟩

end Loop

section Calls

variable {turn : σ → Except ε (Turn σ)} {Inv : σ → Prop} {final : σ}
  {step : σ → ℕ → Except ε (σ × StepOutcome)}

/-- Calls with positive budgets pause in states of the invariant until they complete, which
they do after finitely many. -/
theorem calls_complete
    (hstep : ∀ s n budget, Inv s → Finishes turn final n s → 0 < budget →
      ∃ result, step s budget = .ok result ∧ Progresses turn Inv final n result) (n : ℕ) :
    ∀ s, Inv s → Finishes turn final n s → ∀ budgets : ℕ → ℕ, (∀ i, 0 < budgets i) →
      ∃ k cells, calls step ((List.range k).map budgets) s = .ok (final, .complete cells) ∧
        ∀ j < k, ∃ s' cells', Inv s' ∧
          calls step ((List.range j).map budgets) s = .ok (s', .advanced cells') := by
  induction n using Nat.strong_induction_on with
  | _ n ih =>
    intro s hs hfinishes budgets hbudgets
    obtain ⟨⟨s', outcome⟩, hresult, hprogresses⟩ := hstep s n (budgets 0) hs hfinishes (hbudgets 0)
    have hshift (k : ℕ) : (List.range (k + 1)).map budgets =
        budgets 0 :: (List.range k).map fun i => budgets (i + 1) := by
      rw [List.range_succ_eq_map, List.map_cons, List.map_map]
      rfl
    cases outcome with
    | advanced cells =>
      obtain ⟨hs', m, hm, hrest⟩ := hprogresses
      obtain ⟨k, cells', hcalls, hpauses⟩ :=
        ih m hm s' hs' hrest (fun i => budgets (i + 1)) fun i => hbudgets (i + 1)
      refine ⟨k + 1, cells', ?_, ?_⟩
      · rw [hshift]
        simpa [calls, hresult, bind, Except.bind] using hcalls
      · intro j hj
        cases j with
        | zero => exact ⟨s, 0, hs, rfl⟩
        | succ j =>
          obtain ⟨t, cells'', ht, hpause⟩ := hpauses j (by omega)
          exact ⟨t, cells'', ht, by
            rw [hshift]
            simpa [calls, hresult, bind, Except.bind] using hpause⟩
    | complete cells =>
      have hfinal : s' = final := hprogresses
      subst hfinal
      refine ⟨1, cells, by simp [calls, hresult, bind, Except.bind], ?_⟩
      intro j hj
      obtain rfl : j = 0 := by omega
      exact ⟨s, 0, hs, rfl⟩
    | refused => exact hprogresses.elim

end Calls

end FrankenSim.Library
