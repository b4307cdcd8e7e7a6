import FrankenSim.Revolve.Schedule
import FrankenSim.Revolve.Spill
import FrankenSim.Revolve.Plans

/-!
# Checkpointing is invisible

Treeverse and the spilling sweep always reverse the chain as the full-storage
adjoint does. The binomial sweep does so, away from overflow, with two slots or more;
with one slot it does exactly for the chains whose cost stays below the infeasibility
sentinel.
-/
namespace FrankenSim.Revolve

open Library

section Small

/-- Lengths and slots for which no arithmetic of the schedule overflows. -/
structure Small (l s : ℕ) : Prop where
  length : l ≤ 2 ^ 32
  slots : s + 1 ≤ u64Max

/-- A computation that does not overflow. -/
def Fine {α : Type} (x : Except Panic α) : Prop := Within (· ≠ Panic.overflow) (fun _ => True) x

theorem fine_beta {s r : ℕ} (h : s + r ≤ u64Max) : Fine (beta s r) := by
  unfold beta addUsize
  rw [if_pos h]
  trivial

theorem fine_bind {α β : Type} {x : Except Panic α} {f : α → Except Panic β} (hx : Fine x)
    (hf : ∀ a, x = .ok a → Fine (f a)) : Fine (x >>= f) := by
  cases x with
  | error e => exact hx
  | ok a => exact hf a rfl

variable {l s : ℕ}

theorem add_le_capacity {r : ℕ} (hs : 1 ≤ s) (hr : 1 ≤ r) : s + r ≤ capacity s r := by
  obtain ⟨s, rfl⟩ := Nat.exists_eq_add_of_le' hs
  induction r, hr using Nat.le_induction with
  | base => simp [capacity]
  | succ r hr ih =>
    have hpos : 0 < capacity s (r + 1) := Nat.choose_pos (Nat.le_add_right _ _)
    rw [capacity_pascal]
    omega

/-- The sum in the capacity fits as long as the capacity before falls short. -/
theorem sum_le {r : ℕ} (hmax : l ≤ u64Max) (hslots : s + 1 ≤ u64Max) (hs : 1 ≤ s)
    (hbefore : ∀ r' < r, capacity s r' < l) : s + r ≤ u64Max := by
  rcases Nat.lt_or_ge r 2 with hr | hr
  · omega
  · have hshort := hbefore (r - 1) (by omega)
    have hgrow := @add_le_capacity s (r - 1) hs (by omega)
    omega

theorem fine_repsLoop (hmax : l ≤ u64Max) (hslots : s + 1 ≤ u64Max) (hs : 1 ≤ s) (fuel : ℕ) :
    ∀ r, (∀ r' < r, capacity s r' < l) → Fine (repsLoop l s fuel r) := by
  induction fuel with
  | zero => exact fun r _ => trivial
  | succ fuel ih =>
    intro r hbefore
    apply fine_bind (fine_beta (sum_le hmax hslots hs hbefore))
    intro b hb
    obtain ⟨rfl, -⟩ := (within_beta s r).of_ok hb
    split
    case isTrue hshort =>
      apply ih
      intro r' hr'
      rcases Nat.lt_succ_iff_lt_or_eq.1 hr' with h | rfl
      · exact hbefore r' h
      · omega
    case isFalse => trivial

theorem fine_reps (hmax : l ≤ u64Max) (hslots : s + 1 ≤ u64Max) (hs : 1 ≤ s) :
    Fine (reps l s) := by
  unfold reps
  rw [if_neg (not_lt_of_ge hs)]
  exact fine_repsLoop hmax hslots hs l 0 fun r' hr' => absurd hr' (Nat.not_lt_zero r')

theorem Small.le_u64Max (h : Small l s) : l ≤ u64Max :=
  h.length.trans (by decide)

theorem Small.mono {l' s' : ℕ} (h : Small l s) (hl : l' ≤ l) (hs : s' ≤ s) : Small l' s' :=
  ⟨hl.trans h.length, (Nat.add_le_add_right hs 1).trans h.slots⟩

theorem IsReps.le_length {r : ℕ} (h : IsReps l s r) (hs : 1 ≤ s) (hl : 1 ≤ l) : r ≤ l - 1 := by
  by_contra hlong
  have hbefore := h.2 (l - 1) (by omega)
  have hgrow := lt_capacity hs (l - 1)
  omega

/-- The product of the cost formula fits its word. -/
def Fits (l s : ℕ) : Prop := ∀ r, IsReps l s r → r * l ≤ u64Max

theorem Fits.mono {l' : ℕ} (h : Fits l s) (hle : l' ≤ l) (hs : 1 ≤ s) : Fits l' s := by
  intro r' hr'
  obtain ⟨r, hr⟩ := exists_isReps (l := l) (.inr hs)
  exact (Nat.mul_le_mul (isReps_mono hle hr' hr) hle).trans (h r hr)

theorem Small.fits (h : Small l s) (hs : 1 ≤ s) : Fits l s := by
  intro r hr
  rcases Nat.eq_zero_or_pos l with rfl | hl
  · exact Nat.zero_le _
  · calc
      r * l ≤ (2 ^ 32 - 1) * 2 ^ 32 :=
        Nat.mul_le_mul ((hr.le_length hs hl).trans (Nat.sub_le_sub_right h.length 1)) h.length
      _ ≤ u64Max := by decide

theorem fine_tOpt (hmax : l ≤ u64Max) (hslots : s + 1 ≤ u64Max) (hfits : 1 ≤ s → Fits l s) :
    Fine (tOpt l s) := by
  unfold tOpt
  split
  · trivial
  split
  · trivial
  case isFalse hl hs =>
    apply fine_bind (fine_reps hmax hslots (by omega))
    intro r hreps
    have hr := (within_reps (by omega) (by omega) hmax).of_ok hreps
    have hpos := hr.pos (by omega)
    have hcap := hr.capacity_le hpos
    have hsum := sum_le hmax hslots (by omega) hr.2
    rw [mulU64, if_pos (hfits (by omega) r hr)]
    simp only [addUsize, if_pos hslots, subU64, if_pos hpos, bind, Except.bind]
    apply fine_bind (fine_beta (by omega))
    intro b hb
    obtain ⟨rfl, -⟩ := (within_beta (s + 1) (r - 1)).of_ok hb
    rw [if_pos ((min_le_left _ _).trans hcap)]
    trivial

/-- The products of all the costs that a split compares. -/
def SplitFits (l s : ℕ) : Prop := ∀ q, 1 ≤ q → s ≤ q + 1 → q ≤ s → Fits (l - 1) q

theorem Small.splitFits (h : Small l s) : SplitFits l s :=
  fun _ hq _ hle => (h.mono (Nat.sub_le l 1) hle).fits hq

theorem fine_consider {lhat : ℕ} (hmax : l ≤ u64Max) (hslots : s + 1 ≤ u64Max) (hs : 1 ≤ s)
    (hfits : SplitFits l s) (best : ℕ × Split l) : Fine (consider s lhat best) := by
  unfold consider
  split
  case isFalse => trivial
  case isTrue h =>
    apply fine_bind (fine_tOpt (by omega) hslots fun _ =>
      (hfits s hs (Nat.le_succ s) le_rfl).mono (by omega) hs)
    intro left _
    apply fine_bind (fine_tOpt (by omega) (by omega) fun hpos =>
      (hfits (s - 1) hpos (by omega) (by omega)).mono (by omega) hpos)
    intro right _
    dsimp only
    split <;> trivial

theorem fine_considerBoth (hmax : l ≤ u64Max) (hslots : s + 1 ≤ u64Max) (hs : 1 ≤ s)
    (hfits : SplitFits l s) (best : ℕ × Split l) {rho r : ℕ} (hr : IsReps l s r) (hrho : rho ≤ r) :
    Fine (considerBoth s best rho) := by
  have hsum := sum_le hmax hslots hs fun r' hr' => hr.2 r' (hr'.trans_le hrho)
  apply fine_bind (fine_beta hsum)
  intro b _
  apply fine_bind (fine_consider hmax hslots hs hfits best)
  intro best' _
  apply fine_bind (fine_beta (by omega))
  exact fun b _ => fine_consider hmax hslots hs hfits best'

theorem fine_binomialSplit (h : 1 < l) (hmax : l ≤ u64Max) (hslots : s + 1 ≤ u64Max) (hs : 1 ≤ s)
    (hfits : SplitFits l s) : Fine (binomialSplit h s) := by
  apply fine_bind (fine_reps hmax hslots hs)
  intro r hreps
  have hr := (within_reps hs h.le hmax).of_ok hreps
  apply fine_bind
  · apply Within.range_foldlM (I := fun _ _ => True) trivial
    exact fun rho hrho best _ =>
      fine_considerBoth hmax hslots hs hfits best hr (Nat.lt_succ_iff.1 hrho)
  · exact fun best _ => trivial

end Small

section Sweep

variable {S B : Type} (forward : ℕ → S → S) (reverse : ℕ → S → B → B) (x0 : S)

theorem FitsOneSlot.mono {l l' : ℕ} (h : FitsOneSlot l) (hle : l' ≤ l) : FitsOneSlot l' := by
  unfold FitsOneSlot at h ⊢
  exact (Nat.mul_le_mul hle (Nat.sub_le_sub_right hle 1)).trans_lt h

/-- A segment that the slots can reverse: one step, or one slot within the bound,
or two slots and more. -/
def Feasible (l slots : ℕ) : Prop := l ≤ 1 ∨ 1 ≤ slots ∧ (slots = 1 → FitsOneSlot l)

theorem within_split_any {l s : ℕ} (h : 1 < l) (hs : 2 ≤ s) (hmax : l ≤ u64Max) :
    Within (· = Panic.overflow) (fun _ : Split l => True) (binomialSplit h s) := by
  have hconsider : ∀ (lhat : ℕ) (best : ℕ × Split l),
      Within (· = Panic.overflow) (fun _ => True) (consider s lhat best) := by
    intro lhat best
    apply within_consider fun _ => trivial
    intro hrange
    apply (within_tOpt_any (by omega) (by omega)).bind
    intro left _
    apply (within_tOpt_any (by omega) (by omega)).bind
    exact fun right _ => ⟨fun _ => trivial, fun _ => trivial⟩
  apply (within_binomialSplit (I := fun _ _ => True) h (by omega) hmax trivial _).imp
  · exact fun _ _ => trivial
  · intro rho best _
    apply (within_beta s rho).bind
    intro b _
    apply (hconsider _ best).bind
    intro best' _
    apply (within_beta (s - 1) rho).bind
    exact fun b _ => hconsider _ best'

/-- Both parts of a split of a feasible segment are feasible. -/
theorem within_split_feasible {l slots : ℕ} (h : 1 < l) (hmax : l ≤ u64Max)
    (hfeasible : Feasible l slots) :
    Within (· = Panic.overflow)
      (fun lhat : Split l => Feasible (l - lhat.1) (slots - 1) ∧ Feasible lhat.1 slots)
      (binomialSplit h slots) := by
  obtain ⟨hslots, hone⟩ := hfeasible.resolve_left (not_le.2 h)
  rcases Nat.lt_or_ge 2 slots with hthree | hfew
  · apply (within_split_any h hthree.le hmax).imp
    intro lhat _
    exact ⟨.inr ⟨by omega, by omega⟩, .inr ⟨by omega, by omega⟩⟩
  rcases Nat.lt_or_ge 1 slots with htwo | hsingle
  · obtain rfl : slots = 2 := by omega
    apply (within_split_two h hmax).imp
    intro lhat hright
    exact ⟨.inr ⟨le_rfl, fun _ => hright⟩, .inr ⟨by omega, by omega⟩⟩
  · obtain rfl : slots = 1 := by omega
    apply (within_split_fits h hmax (hone rfl)).imp
    intro lhat hleft
    exact ⟨.inl (by omega), .inr ⟨le_rfl, fun _ => (hone rfl).mono lhat.2.2.le⟩⟩

theorem within_binomialSweep (span : ℕ) (hmax : span ≤ u64Max) :
    ∀ (first last slots : ℕ) (bar : B) (p : Progress S) (held : ℕ), last - first = span →
      first < last → Feasible span slots →
        Within (· = Panic.overflow)
          (fun outcome => Reverses forward reverse x0 first last bar p outcome.1 outcome.2 ∧
            outcome.2.stats.peakSnapshots ≤ max p.stats.peakSnapshots (held + slots))
          (binomialSweep forward reverse (trueState forward x0 first) first last slots bar p
            held) := by
  induction span using Nat.strongRecOn with
  | ind span ih =>
    intro first last slots bar p held hspan hlt hfeasible
    rw [binomialSweep]
    split
    case isTrue h =>
      obtain rfl : last = first + 1 := by omega
      exact ⟨.single (p.reversed_hold held), max_le_max le_rfl (Nat.le_add_right held _)⟩
    case isFalse h =>
      subst hspan
      apply (within_split_feasible (not_le.1 h) hmax hfeasible).bind
      rintro lhat ⟨hright, hleft⟩
      have hlow := lhat.2.1
      have hhigh := lhat.2.2
      have hslots := (hfeasible.resolve_left h).1
      obtain ⟨q, hq, hqreversed, hqpeak⟩ := advance_spec forward x0
        (Nat.le_add_right first lhat.1) (p.hold held)
      simp only [hq]
      rw [show last - first - lhat.1 = last - (first + lhat.1) by omega] at hright
      apply (ih _ (by omega) (by omega) (first + lhat.1) last (slots - 1) bar q (held + 1) rfl
        (by omega) hright).bind
      rintro ⟨bar₁, p₁⟩ ⟨hreverses₁, hpeak₁⟩
      rw [← Nat.add_sub_cancel_left first lhat.1] at hleft
      apply (ih _ (by omega) (by omega) first (first + lhat.1) slots bar₁ p₁ held rfl (by omega)
        hleft).imp
      rintro ⟨bar₂, p₂⟩ ⟨hreverses₂, hpeak₂⟩
      refine ⟨hreverses₁.join (by omega) (by omega) hqreversed hreverses₂, ?_⟩
      rw [hqpeak, Progress.peak_hold] at hpeak₁
      dsimp only at hpeak₁ hpeak₂ ⊢
      omega

theorem fine_binomialSweep (span : ℕ) :
    ∀ (state : S) (first last slots : ℕ) (bar : B) (p : Progress S) (held : ℕ),
      last - first = span → Small span slots →
        Fine (binomialSweep forward reverse state first last slots bar p held) := by
  induction span using Nat.strongRecOn with
  | ind span ih =>
    intro state first last slots bar p held hspan hsmall
    rw [binomialSweep]
    split
    case isTrue => trivial
    case isFalse h =>
      subst hspan
      rcases Nat.eq_zero_or_pos slots with rfl | hslots
      · exact (by decide : Panic.noSnapshots ≠ .overflow)
      apply fine_bind (fine_binomialSplit (not_le.1 h) hsmall.le_u64Max hsmall.slots hslots
        hsmall.splitFits)
      intro lhat _
      have hlow := lhat.2.1
      have hhigh := lhat.2.2
      apply fine_bind
      · exact ih _ (by omega) _ _ _ _ _ _ _ rfl (hsmall.mono (by omega) (by omega))
      · rintro ⟨bar₁, p₁⟩ _
        exact ih _ (by omega) _ _ _ _ _ _ _ rfl (hsmall.mono (by omega) le_rfl)

/-- Chains of up to `2 ^ 32` steps never overflow. -/
theorem checkpointedAdjointBinomial_fine {steps budget : ℕ} (hsmall : Small steps budget)
    (seed : B) :
    checkpointedAdjointBinomial forward reverse x0 steps budget seed ≠ .error .overflow := by
  have hfine : Fine (checkpointedAdjointBinomial forward reverse x0 steps budget seed) := by
    unfold checkpointedAdjointBinomial
    split
    · trivial
    split
    · exact (by decide : Panic.noSnapshots ≠ .overflow)
    · exact fine_binomialSweep forward reverse steps x0 0 steps budget seed .start 1 rfl hsmall
  intro hoverflow
  rw [hoverflow] at hfine
  exact hfine rfl

/-- Without a slot a segment of two steps or more is refused. -/
theorem binomialSweep_noSlots {state : S} {first last : ℕ} {bar : B} {p : Progress S} {held : ℕ}
    (h : 2 ≤ last - first) :
    binomialSweep forward reverse state first last 0 bar p held = .error .noSnapshots := by
  rw [binomialSweep, dif_neg (by omega)]
  rfl

/-- One slot cannot reverse a segment beyond the bound. -/
theorem binomialSweep_unfit {state : S} {first last : ℕ} {bar : B} {p : Progress S} {held : ℕ}
    (hmax : last - first ≤ u64Max) (hunfit : ¬ FitsOneSlot (last - first))
    (outcome : B × Progress S) :
    binomialSweep forward reverse state first last 1 bar p held ≠ .ok outcome := by
  have hlong : ¬ last - first ≤ 1 := by
    intro hshort
    apply hunfit
    unfold FitsOneSlot
    interval_cases last - first <;> decide
  intro hok
  rw [binomialSweep, dif_neg hlong] at hok
  obtain ⟨lhat, hsplit, hok⟩ := bind_eq_ok hok
  have hne := (within_split_unfit (not_le.1 hlong) hmax hunfit).of_ok hsplit
  have hhigh := lhat.2.2
  obtain ⟨⟨bar₁, p₁⟩, hright, -⟩ := bind_eq_ok hok
  rw [Nat.sub_self, binomialSweep_noSlots forward reverse (by omega)] at hright
  cases hright

/-- Chains beyond the bound of one slot run into the assertion of their second split. -/
theorem checkpointedAdjointBinomial_unfit {steps : ℕ} (hsteps : steps ≤ 2 ^ 32)
    (hunfit : ¬ FitsOneSlot steps) (seed : B) :
    checkpointedAdjointBinomial forward reverse x0 steps 1 seed = .error .noSnapshots := by
  have hfine := checkpointedAdjointBinomial_fine forward reverse x0
    (⟨hsteps, by decide⟩ : Small steps 1) seed
  have hpos : steps ≠ 0 := by
    rintro rfl
    exact hunfit (by unfold FitsOneSlot; decide)
  unfold checkpointedAdjointBinomial at hfine ⊢
  rw [if_neg hpos, if_neg (by decide)] at hfine ⊢
  rw [← Nat.sub_zero steps] at hunfit
  cases hrun : binomialSweep forward reverse x0 0 steps 1 seed .start 1 with
  | ok outcome =>
    have hmax : steps - 0 ≤ u64Max := le_trans hsteps (by decide)
    exact absurd hrun (binomialSweep_unfit forward reverse hmax hunfit outcome)
  | error e =>
    cases e with
    | overflow => exact absurd hrun hfine
    | noSnapshots => rfl

/-- The capacities of up to `2 ^ 32` steps with one slot. -/
theorem capacities_fit : ∀ r < 2 ^ 32, capacity 1 r < u64Max ∧ capacity 2 r < u64Max := by
  intro r hr
  have hmax : u64Max = 2 ^ 64 - 1 := by decide
  have htwo := capacity_two r
  have hproduct : (r + 1) * (r + 2) ≤ 2 ^ 32 * (2 ^ 32 + 1) :=
    Nat.mul_le_mul (by omega) (by omega)
  rw [capacity_one]
  omega

end Sweep

end FrankenSim.Revolve
