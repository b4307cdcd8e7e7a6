import FrankenSim.Revolve.Capacity

/-!
# Where the binomial schedule splits

With one slot the only split that works leaves a single step on the right. It is
the cheapest one exactly while the cost of the whole segment stays below the
sentinel for an infeasible part. With two slots a split never leaves a right
part that one slot cannot reverse.
-/
namespace FrankenSim.Revolve

open Library

/-- The cost that stands for a part without snapshots. -/
def sentinel : ℕ := u64Max / 4

/-- Half of `l * (l - 1)` is the cost of `l` steps with one slot. -/
def FitsOneSlot (l : ℕ) : Prop := l * (l - 1) < 2 ^ 63

theorem isReps_one {l r : ℕ} (hl : 1 ≤ l) (h : IsReps l 1 r) : r = l - 1 := by
  have henough := h.1
  rw [capacity_one] at henough
  by_contra hne
  have hbefore := h.2 (l - 1) (by omega)
  rw [capacity_one] at hbefore
  omega

theorem IsCost.one {l r t : ℕ} (hl : 2 ≤ l) (h : IsCost l 1 r t) :
    2 * t = l * (l - 1) ∧ l * (l - 1) ≤ u64Max := by
  obtain rfl := isReps_one (by omega) h.reps
  obtain ⟨l, rfl⟩ := Nat.exists_eq_add_of_le' hl
  have hcost := h.cost
  have hproduct := h.product
  have htwo := capacity_two l
  simp only [Nat.add_sub_cancel, show l + 2 - 1 = l + 1 by omega] at hcost hproduct ⊢
  rw [Nat.mul_comm (l + 2)]
  exact ⟨by linarith, hproduct⟩

section Consider

variable {l : ℕ} {s : ℕ}

/-- The cost of a split, when no arithmetic overflows. -/
def splitCost (l s lhat : ℕ) : Except Panic ℕ := do
  let left ← tOpt lhat s
  let right ← tOpt (l - lhat) (s - 1)
  return saturatingAdd (saturatingAdd lhat left) right

/-- The candidate takes over when it is cheaper, or as cheap and smaller. -/
def Better (cost lhat : ℕ) (best : ℕ × Split l) : Prop :=
  cost < best.1 ∨ cost = best.1 ∧ lhat < best.2.1

theorem within_consider {Q : ℕ × Split l → Prop} {lhat : ℕ} {best : ℕ × Split l}
    (hout : ¬ (1 ≤ lhat ∧ lhat < l) → Q best)
    (hcost : ∀ h : 1 ≤ lhat ∧ lhat < l, Within (· = Panic.overflow)
      (fun cost => (Better cost lhat best → Q (cost, ⟨lhat, h⟩)) ∧
        (¬ Better cost lhat best → Q best)) (splitCost l s lhat)) :
    Within (· = Panic.overflow) Q (consider s lhat best) := by
  unfold consider
  split
  case isFalse h => exact hout h
  case isTrue h =>
    have hwithin := hcost h
    unfold splitCost at hwithin
    cases hleft : tOpt lhat s with
    | error e =>
      rw [hleft] at hwithin
      exact hwithin
    | ok left =>
      cases hright : tOpt (l - lhat) (s - 1) with
      | error e =>
        rw [hleft, hright] at hwithin
        simp only [bind, Except.bind]
        exact hwithin
      | ok right =>
        rw [hleft, hright] at hwithin
        simp only [bind, Except.bind]
        split
        case isTrue hbetter => exact hwithin.1 hbetter
        case isFalse hworse => exact hwithin.2 hworse

/-- Both break points of every repetition number are considered in turn. -/
theorem within_binomialSplit {I : ℕ → ℕ × Split l → Prop} (h : 1 < l) (hs : 1 ≤ s)
    (hmax : l ≤ u64Max) (hstart : I 0 (u64Max, ⟨1, le_rfl, h⟩))
    (hround : ∀ rho best, I rho best → Within (· = Panic.overflow) (I (rho + 1))
      (considerBoth s best rho)) :
    Within (· = Panic.overflow) (fun lhat : Split l => ∃ r best, IsReps l s r ∧
      I (r + 1) best ∧ best.2 = lhat) (binomialSplit h s) := by
  apply (within_reps hs h.le hmax).bind
  intro r hr
  apply (Within.range_foldlM (n := r + 1) hstart fun rho _ best => hround rho best).bind
  exact fun best hbest => ⟨r, best, hr, hbest, rfl⟩

end Consider

section OneSlot

theorem tOpt_short {l : ℕ} (hl : l ≤ 1) (s : ℕ) : tOpt l s = .ok 0 := if_pos hl

theorem tOpt_zero {l : ℕ} (hl : 2 ≤ l) : tOpt l 0 = .ok sentinel := by
  rw [tOpt, if_neg (by omega), if_pos rfl]
  rfl

variable {l : ℕ}

/-- With one slot a split costs more than the sentinel, unless one step is left. -/
theorem within_splitCost_one {lhat : ℕ} (hlow : 1 ≤ lhat) (hhigh : lhat < l) (hmax : l ≤ u64Max) :
    Within (· = Panic.overflow)
      (fun cost => (lhat = l - 1 → 2 * cost = l * (l - 1)) ∧ (lhat ≠ l - 1 → sentinel < cost))
      (splitCost l 1 lhat) := by
  unfold splitCost
  by_cases hlast : lhat = l - 1
  · rw [tOpt_short (by omega : l - lhat ≤ 1)]
    by_cases hshort : lhat ≤ 1
    · obtain rfl : l = 2 := by omega
      obtain rfl : lhat = 1 := by omega
      rw [tOpt_short hshort]
      exact ⟨fun _ => by decide, fun hne => absurd rfl hne⟩
    · apply (within_tOpt le_rfl (by omega) (by omega)).bind
      rintro left ⟨r, hleft⟩
      obtain ⟨hdouble, hproduct⟩ := hleft.one (by omega)
      refine ⟨fun _ => ?_, fun hne => absurd hlast hne⟩
      obtain ⟨k, rfl⟩ := Nat.exists_eq_add_of_le' (show 3 ≤ l by omega)
      obtain rfl : lhat = k + 2 := by omega
      have hbig : 4 ≤ u64Max := by decide
      have hmain : 2 * left = (k + 2) * (k + 1) := hdouble
      have hk : (k + 2) * (k + 1) ≤ u64Max := hproduct
      have hlength : 2 * (k + 2) ≤ u64Max := by
        rcases Nat.eq_zero_or_pos k with rfl | hpos
        · exact hbig
        · exact le_trans (by nlinarith) hk
      have hgoal : (k + 3) * (k + 2) = (k + 2) * (k + 1) + 2 * (k + 2) := by ring
      have hsum : k + 2 + left ≤ u64Max := by linarith
      simp only [saturatingAdd, Nat.add_zero, min_eq_left hsum]
      calc
        2 * (k + 2 + left) = (k + 2) * (k + 1) + 2 * (k + 2) := by rw [Nat.mul_add, hmain, Nat.add_comm]
        _ = (k + 3) * (k + 2) := hgoal.symm
  · rw [tOpt_zero (by omega : 2 ≤ l - lhat)]
    have hleft : Within (· = Panic.overflow) (fun _ => True) (tOpt lhat 1) := by
      by_cases hshort : lhat ≤ 1
      · rw [tOpt_short hshort]
        trivial
      · exact (within_tOpt le_rfl (by omega) (by omega)).imp fun _ _ => trivial
    apply hleft.bind
    intro left _
    refine ⟨fun heq => absurd heq hlast, fun _ => ?_⟩
    have hbelow : sentinel < u64Max := by decide
    simp only [saturatingAdd]
    omega

/-- Below the bound the split of one slot leaves one step on the right. -/
theorem within_split_fits (h : 1 < l) (hmax : l ≤ u64Max) (hfits : FitsOneSlot l) :
    Within (· = Panic.overflow) (fun lhat : Split l => lhat.1 = l - 1) (binomialSplit h 1) := by
  have hkeep : ∀ (lhat : ℕ) (best : ℕ × Split l), (best.1 ≤ sentinel → best.2.1 = l - 1) →
      Within (· = Panic.overflow) (fun best : ℕ × Split l => best.1 ≤ sentinel → best.2.1 = l - 1)
        (consider 1 lhat best) := by
    intro lhat best hbest
    apply within_consider fun _ => hbest
    intro hrange
    apply (within_splitCost_one hrange.1 hrange.2 hmax).imp
    rintro cost ⟨-, hbig⟩
    refine ⟨fun _ hsmall => ?_, fun _ => hbest⟩
    by_contra hne
    exact absurd (hbig hne) (not_lt_of_ge hsmall)
  have hlast : ∀ best : ℕ × Split l, (best.1 ≤ sentinel → best.2.1 = l - 1) →
      Within (· = Panic.overflow) (fun best : ℕ × Split l => best.1 ≤ sentinel ∧ best.2.1 = l - 1)
        (consider 1 (l - 1) best) := by
    intro best hbest
    apply within_consider fun hout => absurd ⟨by omega, by omega⟩ hout
    intro hrange
    apply (within_splitCost_one hrange.1 hrange.2 hmax).imp
    rintro cost ⟨hcost, -⟩
    have hsmall : cost ≤ sentinel := by
      have hdouble := hcost rfl
      have hbound : sentinel = 2 ^ 62 - 1 := by decide
      unfold FitsOneSlot at hfits
      omega
    refine ⟨fun _ => ⟨hsmall, rfl⟩, fun hworse => ?_⟩
    have hle : best.1 ≤ cost := not_lt.1 fun hlt => hworse (.inl hlt)
    exact ⟨hle.trans hsmall, hbest (hle.trans hsmall)⟩
  have hsplit := within_binomialSplit (s := 1)
    (I := fun rounds best => (best.1 ≤ sentinel → best.2.1 = l - 1) ∧
      (1 ≤ rounds → best.1 ≤ sentinel ∧ best.2.1 = l - 1)) h le_rfl hmax
    ⟨fun hsmall => absurd hsmall (by decide : ¬ u64Max ≤ sentinel), fun hzero => absurd hzero (by decide)⟩
    (by
      rintro rho best ⟨hbest, -⟩
      apply (within_beta 1 rho).bind
      rintro _ ⟨rfl, -⟩
      apply (hkeep _ best hbest).bind
      intro best' hbest'
      apply (within_beta (1 - 1) rho).bind
      rintro _ ⟨rfl, -⟩
      have hcandidate : max (l - min (capacity (1 - 1) rho) u64Max) 1 = l - 1 := by
        rw [Nat.sub_self, capacity_zero]
        have hbig : 1 ≤ u64Max := by decide
        omega
      rw [hcandidate]
      exact (hlast best' hbest').imp fun _ hdone => ⟨fun _ => hdone.2, fun _ => hdone⟩)
  apply hsplit.imp
  rintro lhat ⟨r, best, -, hbest, rfl⟩
  exact (hbest.2 (Nat.le_add_left 1 r)).2

/-- Beyond the bound the split of one slot leaves two steps or more on the right. -/
theorem within_split_unfit (h : 1 < l) (hmax : l ≤ u64Max) (hunfit : ¬ FitsOneSlot l) :
    Within (· = Panic.overflow) (fun lhat : Split l => lhat.1 ≠ l - 1) (binomialSplit h 1) := by
  have hlong : 3 ≤ l := by
    by_contra hshort
    obtain rfl : l = 2 := by omega
    exact hunfit (by decide : 2 * (2 - 1) < 2 ^ 63)
  have hbound : sentinel = 2 ^ 62 - 1 := by decide
  have hkeep : ∀ (lhat : ℕ) (best : ℕ × Split l), best.1 ≤ 2 ^ 62 ∧ best.2.1 ≠ l - 1 →
      Within (· = Panic.overflow) (fun best : ℕ × Split l => best.1 ≤ 2 ^ 62 ∧ best.2.1 ≠ l - 1)
        (consider 1 lhat best) := by
    intro lhat best hbest
    apply within_consider fun _ => hbest
    intro hrange
    apply (within_splitCost_one hrange.1 hrange.2 hmax).imp
    rintro cost ⟨hcost, -⟩
    refine ⟨fun hbetter => ⟨?_, fun heq => ?_⟩, fun _ => hbest⟩
    · rcases hbetter with hlt | ⟨heq, -⟩
      · exact hlt.le.trans hbest.1
      · exact heq.le.trans hbest.1
    · have hdouble := hcost heq
      unfold FitsOneSlot at hunfit
      rcases hbetter with hlt | ⟨-, hlt⟩
      · omega
      · have hin := best.2.2.2
        change lhat = l - 1 at heq
        omega
  have hfirst : ∀ best : ℕ × Split l, best.1 = u64Max →
      Within (· = Panic.overflow) (fun best : ℕ × Split l => best.1 ≤ 2 ^ 62 ∧ best.2.1 ≠ l - 1)
        (consider 1 1 best) := by
    intro best hbest
    apply within_consider fun hout => absurd ⟨le_rfl, h⟩ hout
    intro hrange
    have hcost : splitCost l 1 1 = .ok (2 ^ 62) := by
      rw [splitCost, tOpt_short le_rfl, tOpt_zero (by omega : 2 ≤ l - 1)]
      rfl
    rw [hcost]
    refine ⟨fun _ => ⟨le_rfl, ?_⟩, fun hworse => absurd (.inl ?_) hworse⟩
    · change 1 ≠ l - 1
      omega
    · rw [hbest]
      decide
  have hsplit := within_binomialSplit (s := 1)
    (I := fun rounds best => (rounds = 0 → best.1 = u64Max) ∧
      (1 ≤ rounds → best.1 ≤ 2 ^ 62 ∧ best.2.1 ≠ l - 1)) h le_rfl hmax
    ⟨fun _ => rfl, fun hzero => absurd hzero (by decide)⟩
    (by
      rintro rho best ⟨hstart, hbest⟩
      apply (within_beta 1 rho).bind
      rintro _ ⟨rfl, -⟩
      have hmiddle : Within (· = Panic.overflow)
          (fun best : ℕ × Split l => best.1 ≤ 2 ^ 62 ∧ best.2.1 ≠ l - 1)
          (consider 1 (min (min (capacity 1 rho) u64Max) (l - 1)) best) := by
        rcases Nat.eq_zero_or_pos rho with rfl | hpos
        · have hcandidate : min (min (capacity 1 0) u64Max) (l - 1) = 1 := by
            rw [capacity_none]
            have hbig : 1 ≤ u64Max := by decide
            omega
          rw [hcandidate]
          exact hfirst best (hstart rfl)
        · exact hkeep _ best (hbest hpos)
      apply hmiddle.bind
      intro best' hbest'
      apply (within_beta (1 - 1) rho).bind
      rintro _ ⟨rfl, -⟩
      exact (hkeep _ best' hbest').imp fun _ hdone =>
        ⟨fun hzero => absurd hzero (Nat.succ_ne_zero rho), fun _ => hdone⟩)
  apply hsplit.imp
  rintro lhat ⟨r, best, -, hbest, rfl⟩
  exact (hbest.2 (Nat.le_add_left 1 r)).2

end OneSlot

section TwoSlots

theorem isReps_mono {l l' s r r' : ℕ} (hle : l ≤ l') (h : IsReps l s r) (h' : IsReps l' s r') :
    r ≤ r' := by
  by_contra hlt
  have hbefore := h.2 r' (by omega)
  exact absurd (hle.trans h'.1) (by omega)

/-- Every further round adds a capacity of at least the length. -/
theorem capacity_growth {l s q : ℕ} (h : l ≤ capacity s (q + 1)) (count : ℕ) :
    capacity (s + 1) q + count * l ≤ capacity (s + 1) (q + count) := by
  induction count with
  | zero => simp
  | succ count ih =>
    have hround : l ≤ capacity s (q + count + 1) := h.trans (capacity_mono s (by omega))
    rw [← Nat.add_assoc, capacity_pascal, Nat.succ_mul]
    omega

/-- The cost grows by at most the repetition number in every step. -/
theorem IsCost.slope {l l' s r r' t t' : ℕ} (hl : 2 ≤ l) (hle : l ≤ l') (h : IsCost l s r t)
    (h' : IsCost l' s r' t') : t' ≤ t + r' * (l' - l) := by
  obtain ⟨q, rfl⟩ := Nat.exists_eq_add_of_le' (h.reps.pos hl)
  obtain ⟨d, rfl⟩ := Nat.exists_eq_add_of_le (isReps_mono hle h.reps h'.reps)
  obtain ⟨e, rfl⟩ := Nat.exists_eq_add_of_le hle
  have hgrowth := capacity_growth h.reps.1 d
  have hcost := h.cost
  have hcost' := h'.cost
  rw [show q + 1 + d - 1 = q + d by omega] at hcost'
  rw [Nat.add_sub_cancel] at hcost
  rw [Nat.add_sub_cancel_left]
  nlinarith

theorem IsCost.le_product {l s r t : ℕ} (hl : 2 ≤ l) (h : IsCost l s r t) :
    t + r ≤ r * l := by
  have hpos := h.reps.pos hl
  have hgrow := lt_capacity (Nat.le_add_left 1 s) (r - 1)
  have hcost := h.cost
  omega

theorem within_tOpt_any {l s : ℕ} (hs : 1 ≤ s) (hmax : l ≤ u64Max) :
    Within (· = Panic.overflow) (fun t => l ≤ 1 ∧ t = 0 ∨ 2 ≤ l ∧ ∃ r, IsCost l s r t)
      (tOpt l s) := by
  rcases Nat.lt_or_ge 1 l with hl | hl
  · exact (within_tOpt hs hl hmax).imp fun _ h => .inr ⟨hl, h⟩
  · rw [tOpt_short hl]
    exact .inl ⟨hl, rfl⟩

/-- The repetition number with two slots is far below the length that one slot
cannot reverse. -/
theorem IsCost.reps_lt {m r t : ℕ} (hm : 2 ≤ m) (h : IsCost m 2 r t) : r < 2 ^ 22 := by
  by_contra hbig
  have hpos := h.reps.pos hm
  have hbefore := h.reps.2 (r - 1) (by omega)
  have htwo := capacity_two (r - 1)
  rw [Nat.sub_add_cancel hpos, show r - 1 + 2 = r + 1 by omega] at htwo
  have hlow : 2 ^ 22 ≤ r := not_lt.1 hbig
  have hlong : 2 ^ 43 ≤ m := by nlinarith
  have hproduct := (Nat.mul_le_mul hlow hlong).trans h.product
  exact absurd hproduct (by decide)

/-- The triple capacity outgrows the length. -/
theorem IsCost.lt_capacity_three {m r t : ℕ} (hm : 11 ≤ m) (h : IsCost m 2 r t) :
    m < capacity 3 (r - 1) := by
  have hpos := h.reps.pos (by omega)
  have henough := h.reps.1
  have htwo := capacity_two r
  have hthree := capacity_three (r - 1)
  rw [Nat.sub_add_cancel hpos] at hthree
  have hfour : 4 ≤ r := by
    by_contra hsmall
    have hle := capacity_mono 2 (show r ≤ 3 by omega)
    have hten : capacity 2 3 = 10 := by decide
    omega
  nlinarith

variable {l : ℕ}

/-- Leaving one step on the right is cheaper than any part one slot cannot reverse. -/
theorem twoSlots_cheaper {b c : ℕ} (hb : 1 ≤ b) (hbl : b < l) (hmax : l ≤ u64Max)
    (hunfit : ¬ FitsOneSlot (l - b)) (hc : splitCost l 2 (l - 1) = .ok c) :
    c < u64Max ∧ ∀ c', splitCost l 2 b = .ok c' → c < c' := by
  obtain ⟨k, rfl⟩ := Nat.exists_eq_add_of_le hbl.le
  rw [Nat.add_sub_cancel_left] at hunfit
  have hright : 2 ^ 31 < k := by
    by_contra hsmall
    apply hunfit
    unfold FitsOneSlot
    calc
      k * (k - 1) ≤ 2 ^ 31 * 2 ^ 31 := Nat.mul_le_mul (by omega) (by omega)
      _ < 2 ^ 63 := by decide
  unfold splitCost at hc
  obtain ⟨t, ht, hc⟩ := bind_eq_ok hc
  rw [tOpt_short (by omega : b + k - (b + k - 1) ≤ 1)] at hc
  obtain ⟨r, hcost⟩ := (within_tOpt (by decide) (by omega) (by omega)).of_ok ht
  have hreps := hcost.reps_lt (by omega)
  have hthree := hcost.lt_capacity_three (by omega)
  have hproduct := hcost.product
  have htotal : t + capacity 3 (r - 1) = r * (b + k - 1) := hcost.cost
  have hceq : c = b + k - 1 + t := by
    have hvalue := (Except.ok.inj hc).symm
    simp only [saturatingAdd] at hvalue
    omega
  refine ⟨by omega, fun c' hc' => ?_⟩
  unfold splitCost at hc'
  obtain ⟨left, hleft, hc'⟩ := bind_eq_ok hc'
  obtain ⟨right, hrightCost, hc'⟩ := bind_eq_ok hc'
  rw [Nat.add_sub_cancel_left] at hrightCost
  obtain ⟨r₁, hone⟩ := (within_tOpt le_rfl (by omega) (by omega)).of_ok hrightCost
  obtain ⟨hdouble, -⟩ := hone.one (by omega)
  have hgap : (r + 1) * (k - 1) < right := by
    have hlt : 2 * (r + 1) * (k - 1) < k * (k - 1) :=
      Nat.mul_lt_mul_of_pos_right (by omega) (by omega)
    rw [← hdouble, Nat.mul_assoc] at hlt
    omega
  rw [Nat.succ_mul] at hgap
  have hslope : b + k - 1 + t < b + left + right := by
    rcases (within_tOpt_any (by decide) (by omega)).of_ok hleft with ⟨hshort, rfl⟩ | ⟨hlong, r₂, hb₂⟩
    · obtain rfl : b = 1 := by omega
      have hbound := hcost.le_product (by omega)
      obtain ⟨j, rfl⟩ := Nat.exists_eq_add_of_le' (show 1 ≤ k by omega)
      simp only [Nat.add_sub_cancel, show 1 + (j + 1) - 1 = j + 1 by omega, Nat.mul_succ] at hbound hgap ⊢
      omega
    · have hbound := hb₂.slope hlong (by omega) hcost
      rw [show b + k - 1 - b = k - 1 by omega] at hbound
      omega
  have hvalue := (Except.ok.inj hc').symm
  simp only [saturatingAdd] at hvalue
  omega

/-- The start value, or the cost of the split that is held. -/
def Costed (best : ℕ × Split l) : Prop :=
  best.1 = u64Max ∧ best.2.1 = 1 ∨ splitCost l 2 best.2.1 = .ok best.1

/-- No dearer than leaving one step on the right. -/
def Cheap (best : ℕ × Split l) : Prop := ∃ c, splitCost l 2 (l - 1) = .ok c ∧ best.1 ≤ c

theorem within_splitCost_two {lhat : ℕ} (hlow : 1 ≤ lhat) (hhigh : lhat < l) (hmax : l ≤ u64Max) :
    Within (· = Panic.overflow) (fun cost => splitCost l 2 lhat = .ok cost) (splitCost l 2 lhat) := by
  have hwithin : Within (· = Panic.overflow) (fun _ => True) (splitCost l 2 lhat) := by
    apply (within_tOpt_any (by decide) (by omega)).bind
    intro left _
    apply (within_tOpt_any le_rfl (by omega)).bind
    exact fun right _ => trivial
  exact hwithin.returned.imp fun _ h => h.1

theorem within_consider_costed {lhat : ℕ} {best : ℕ × Split l} (hmax : l ≤ u64Max)
    (hbest : Costed best) :
    Within (· = Panic.overflow)
      (fun best' => Costed best' ∧ (Cheap best → Cheap best') ∧ (lhat = l - 1 → 1 ≤ lhat → Cheap best'))
      (consider 2 lhat best) := by
  apply within_consider
  · exact fun hout => ⟨hbest, id, fun hlast hlow => absurd ⟨hlow, by omega⟩ hout⟩
  · intro hrange
    apply (within_splitCost_two hrange.1 hrange.2 hmax).imp
    intro cost hcost
    constructor
    · intro hbetter
      have hle : cost ≤ best.1 := hbetter.elim le_of_lt fun heq => heq.1.le
      refine ⟨.inr hcost, ?_, ?_⟩
      · rintro ⟨c, hc, hbound⟩
        exact ⟨c, hc, hle.trans hbound⟩
      · rintro rfl -
        exact ⟨cost, hcost, le_rfl⟩
    · intro hworse
      have hle : best.1 ≤ cost := not_lt.1 fun hlt => hworse (.inl hlt)
      refine ⟨hbest, id, ?_⟩
      rintro rfl -
      exact ⟨cost, hcost, hle⟩

/-- The split of two slots leaves a right part that one slot reverses. -/
theorem within_split_two (h : 1 < l) (hmax : l ≤ u64Max) :
    Within (· = Panic.overflow) (fun lhat : Split l => FitsOneSlot (l - lhat.1))
      (binomialSplit h 2) := by
  have hsplit := within_binomialSplit (s := 2)
    (I := fun rounds best => Costed best ∧ (1 ≤ rounds → Cheap best)) h (by decide) hmax
    ⟨.inl ⟨rfl, rfl⟩, fun hzero => absurd hzero (by decide)⟩
    (by
      rintro rho best ⟨hcosted, hcheap⟩
      apply (within_beta 2 rho).bind
      rintro _ ⟨rfl, -⟩
      apply (within_consider_costed hmax hcosted).bind
      rintro best' ⟨hcosted', hkeep, -⟩
      apply (within_beta (2 - 1) rho).bind
      rintro _ ⟨rfl, -⟩
      apply (within_consider_costed hmax hcosted').imp
      rintro best'' ⟨hcosted'', hkeep', hlast⟩
      refine ⟨hcosted'', fun _ => ?_⟩
      rcases Nat.eq_zero_or_pos rho with rfl | hpos
      · have hcandidate : max (l - min (capacity (2 - 1) 0) u64Max) 1 = l - 1 := by
          rw [capacity_none]
          have hbig : 1 ≤ u64Max := by decide
          omega
        exact hlast hcandidate (le_max_right _ _)
      · exact hkeep' (hkeep (hcheap hpos)))
  apply hsplit.imp
  rintro lhat ⟨r, best, -, ⟨hcosted, hcheap⟩, rfl⟩
  by_contra hunfit
  obtain ⟨c, hc, hle⟩ := hcheap (Nat.le_add_left 1 r)
  obtain ⟨hfinite, hbeats⟩ := twoSlots_cheaper best.2.2.1 best.2.2.2 hmax hunfit hc
  rcases hcosted with ⟨hstart, -⟩ | hcost
  · omega
  · exact absurd (hbeats _ hcost) (not_lt_of_ge hle)

end TwoSlots

end FrankenSim.Revolve
