import FrankenSim.Revolve.Optimality

/-!
# The three sweeps against full storage

Every sweep that ends returns the full-storage adjoint. Treeverse and the spilling
sweep always end; the binomial sweep ends exactly when the costs of its splits stay
within their words and, with one slot, the chain is within the bound of the sentinel.
-/
namespace FrankenSim.Revolve

open Library

/-- A chain reversed within a number of snapshots, exactly as with full storage. -/
def Invisible {S B : Type} (forward : ℕ → S → S) (reverse : ℕ → S → B → B) (x0 : S) (steps : ℕ)
    (seed : B) (snapshots : ℕ) (outcome : B × Progress S) : Prop :=
  outcome.1 = fullAdjoint forward reverse x0 steps seed ∧
    outcome.2.reversed = callsDown forward x0 0 steps ∧
    outcome.2.stats.peakSnapshots ≤ snapshots

section Sweep

variable {S B : Type} (forward : ℕ → S → S) (reverse : ℕ → S → B → B) (x0 : S)

/-- The binomial sweep meets its promise exactly when its arithmetic stays within its words and,
with one slot, the chain is within the bound. -/
theorem checkpointedAdjointBinomial_iff {steps budget : ℕ} (hmax : steps ≤ u64Max)
    (hbudget : 1 ≤ budget) (seed : B) :
    (∃ outcome, checkpointedAdjointBinomial forward reverse x0 steps budget seed = .ok outcome ∧
      Invisible forward reverse x0 steps seed (budget + 1) outcome) ↔
        (steps = 0 ∨ Exact steps budget) ∧ (2 ≤ budget ∨ FitsOneSlot steps) := by
  constructor
  · rintro ⟨outcome, hok, -⟩
    exact checkpointedAdjointBinomial_condition forward reverse x0 hmax hbudget seed hok
  · rintro ⟨hwords, hcondition⟩
    unfold checkpointedAdjointBinomial
    by_cases hzero : steps = 0
    · subst hzero
      rw [if_pos rfl]
      exact ⟨_, rfl, rfl, rfl, Nat.zero_le _⟩
    rw [if_neg hzero, if_neg (not_lt_of_ge hbudget)]
    have hfeasible := feasible_chain hbudget hcondition
    have hwithin := within_binomialSweep forward reverse x0 steps hmax 0 steps budget seed .start 1
      rfl (Nat.pos_of_ne_zero hzero) hfeasible
    rw [trueState] at hwithin
    obtain ⟨outcome, hok, hreverses, hpeak⟩ := ((hwords.resolve_left hzero).fine forward reverse
      hmax x0 0 steps seed .start 1 (Nat.sub_zero _) hfeasible).exists_ok hwithin
    refine ⟨outcome, hok, ?_, hreverses.reversed, ?_⟩
    · rw [fullAdjoint_eq, hreverses.bar_eq]
    · have hstart : (Progress.start : Progress S).stats.peakSnapshots = 0 := rfl
      omega

end Sweep

/-- All three sweeps call `reverse` once per step, last step first, at the true states, and
return the full-storage adjoint within their snapshots. For the binomial sweep this is so
exactly when the arithmetic of its splits stays within its words, as it does for up to
`2 ^ 32` steps, and, with one slot, the chain is within the bound. -/
theorem checkpointing_invisible_iff {S B : Type} (forward : ℕ → S → S) (reverse : ℕ → S → B → B)
    (x0 : S) (seed : B) (steps : ℕ) :
    (∀ budget, minBudget steps ≤ budget →
      ∃ outcome, checkpointedAdjoint forward reverse x0 steps budget seed = some outcome ∧
        Invisible forward reverse x0 steps seed (Nat.log 2 steps + 1) outcome) ∧
    (∀ (M : Type) (store : SnapshotStore S M) (memory : M) (ramBudget : ℕ),
      store.Honest memory → 1 ≤ ramBudget →
        ∃ bar p, checkpointedAdjointSpilling forward reverse store x0 steps ramBudget memory seed =
            some (bar, p) ∧
          bar = fullAdjoint forward reverse x0 steps seed ∧
          p.progress.reversed = callsDown forward x0 0 steps ∧
          p.peakRamSnapshots ≤ ramBudget ∧
          ∀ key, about key p.calls = [] ∨ Lifecycle key (about key p.calls)) ∧
    ∀ budget, 1 ≤ budget → steps ≤ u64Max →
      ((∃ outcome, checkpointedAdjointBinomial forward reverse x0 steps budget seed = .ok outcome ∧
        Invisible forward reverse x0 steps seed (budget + 1) outcome) ↔
          (steps = 0 ∨ Exact steps budget) ∧ (2 ≤ budget ∨ steps * (steps - 1) < 2 ^ 63)) ∧
      (1 ≤ steps → steps ≤ 2 ^ 32 → budget < u64Max → Exact steps budget) := by
  refine ⟨fun budget hbudget => ?_, fun M store memory ramBudget hstore hbudget => ?_,
    fun budget hbudget hmax => ⟨checkpointedAdjointBinomial_iff forward reverse x0 hmax hbudget
      seed, fun hsteps hshort hslots => Small.exact ⟨hshort, hslots⟩ hsteps (.inr hbudget)⟩⟩
  · obtain ⟨p, hok, hcalls, hpeak⟩ := checkpointedAdjoint_spec forward reverse x0 hbudget seed
    exact ⟨_, hok, rfl, hcalls, hpeak⟩
  · obtain ⟨p, hok, hcalls, hpeak, hkeys⟩ := checkpointedAdjointSpilling_spec forward
      reverse x0 steps hstore hbudget seed
    exact ⟨_, p, hok, rfl, hcalls, hpeak, hkeys⟩

section Runs

/-- A store that keeps its snapshots in a table; `evict` is the default no-op. -/
def tableStore : SnapshotStore ℕ (ℕ → ℕ) where
  write table key state := Function.update table key state
  read table key := (table key, table)
  evict table _ := table

theorem honest_tableStore : tableStore.Honest fun _ => 0 := by
  intro calls key state
  induction calls using List.reverseRecOn with
  | nil => exact fun h => nomatch h
  | append_singleton calls call ih =>
    intro hlive
    rw [live, List.foldl_append] at hlive
    rw [List.foldl_append]
    cases call with
    | write k s =>
      by_cases hk : k = key
      · subst hk
        simpa [nextLive, SnapshotStore.apply, tableStore] using hlive
      · simp only [List.foldl_cons, List.foldl_nil, nextLive, if_neg hk] at hlive
        simpa [SnapshotStore.apply, tableStore, Function.update, Ne.symm hk] using ih hlive
    | read k => exact ih hlive
    | evict k =>
      by_cases hk : k = key
      · simp [nextLive, hk] at hlive
      · simp only [List.foldl_cons, List.foldl_nil, nextLive, if_neg hk] at hlive
        exact ih hlive

theorem checkpointing_invisible_three :
    let forward := fun i s : ℕ => s + i
    let reverse := fun _ s bar : ℕ => 3 * bar + s
    (∃ outcome, checkpointedAdjoint forward reverse 1 3 2 5 = some outcome ∧
      Invisible forward reverse 1 3 5 (Nat.log 2 3 + 1) outcome) ∧
    (∃ bar p, checkpointedAdjointSpilling forward reverse tableStore 1 3 1 (fun _ => 0) 5 =
        some (bar, p) ∧
      bar = fullAdjoint forward reverse 1 3 5 ∧
      p.progress.reversed = callsDown forward 1 0 3 ∧ p.peakRamSnapshots ≤ 1 ∧
      ∀ key, about key p.calls = [] ∨ Lifecycle key (about key p.calls)) ∧
    ∃ outcome, checkpointedAdjointBinomial forward reverse 1 3 1 5 = .ok outcome ∧
      Invisible forward reverse 1 3 5 (1 + 1) outcome := by
  intro forward reverse
  obtain ⟨htree, hspill, hbinomial⟩ := checkpointing_invisible_iff forward reverse 1 5 3
  obtain ⟨hiff, hexact⟩ := hbinomial 1 le_rfl (by decide)
  exact ⟨htree 2 (by decide), hspill _ tableStore _ 1 honest_tableStore le_rfl,
    hiff.2 ⟨.inr (hexact (by decide) (by decide) (by decide)), .inr (by decide)⟩⟩

/-- With one slot and `2 ^ 32` steps every capacity fits, but the schedule runs
into the assertion of its second split. -/
theorem binomial_misses_chain :
    (∀ r < 2 ^ 32, capacity 1 r < u64Max ∧ capacity 2 r < u64Max) ∧
      checkpointedAdjointBinomial (fun _ s : ℕ => s) (fun _ _ bar : ℕ => bar) 0 (2 ^ 32) 1 0 =
        .error .noSnapshots :=
  ⟨capacities_fit, checkpointedAdjointBinomial_unfit _ _ _ le_rfl
    (by unfold FitsOneSlot; decide) 0⟩

end Runs

end FrankenSim.Revolve
