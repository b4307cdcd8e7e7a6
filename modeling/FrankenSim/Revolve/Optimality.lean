import FrankenSim.Revolve.Equivalence

/-!
# The binomial schedule is optimal

The split that is the best of the break points is the least of the cheapest
splits, so the sweep makes the least number of evaluations of any recursive
schedule, which the closed formula gives. One slot is the exception: beyond its
bound the sentinel for an infeasible part is cheaper than the only split that
works.
-/
namespace FrankenSim.Revolve

open Library

section Costs

variable {l s : ℕ}

theorem Fine.exists_ok {α : Type} {Q : α → Prop} {x : Except Panic α} (hfine : Fine x)
    (hx : Within (· = Panic.overflow) Q x) : ∃ a, x = .ok a ∧ Q a := by
  cases x with
  | error e => exact absurd hx hfine
  | ok a => exact ⟨a, rfl, hx⟩

/-- The capacity is exact as long as it fits its word. -/
theorem beta_exact {s r : ℕ} (hs : s ≤ u64Max) (hr : r ≤ u64Max) (hfits : capacity s r ≤ u64Max) :
    beta s r = .ok (capacity s r) := by
  have hsum : s + r ≤ u64Max := by
    rcases Nat.eq_zero_or_pos s with rfl | hspos
    · omega
    rcases Nat.eq_zero_or_pos r with rfl | hrpos
    · omega
    exact (add_le_capacity hspos hrpos).trans hfits
  obtain ⟨b, hb, rfl, -⟩ := (fine_beta hsum).exists_ok (within_beta s r)
  rw [hb, min_eq_left hfits]

theorem IsCost.isOptimum {r t : ℕ} (hl : 2 ≤ l) (h : IsCost l s r t) : IsOptimum l s t := by
  refine ⟨r, h.reps, ?_⟩
  have hcost := h.cost
  omega

/-- Without overflow the cost formula gives the least cost. -/
theorem within_tOpt_optimum (hl : 1 ≤ l) (hwork : l ≤ 1 ∨ 1 ≤ s) (hmax : l ≤ u64Max) :
    Within (· = Panic.overflow) (IsOptimum l s) (tOpt l s) := by
  rcases Nat.lt_or_ge 1 l with hlong | hshort
  · apply (within_tOpt (hwork.resolve_left (not_le.2 hlong)) hlong hmax).imp
    rintro t ⟨r, hcost⟩
    exact hcost.isOptimum hlong
  · obtain rfl : l = 1 := by omega
    rw [tOpt_short le_rfl]
    exact isOptimum_one s

/-- The cost of a split with workable parts saturates. -/
theorem within_splitCost {m : ℕ} (hlow : 1 ≤ m) (hhigh : m < l) (hs : 2 ≤ s) (hmax : l ≤ u64Max) :
    Within (· = Panic.overflow) (fun cost => ∃ c, IsSplitCost l s m c ∧ cost = min c u64Max)
      (splitCost l s m) := by
  apply (within_tOpt_optimum hlow (.inr (by omega)) (by omega)).bind
  intro a ha
  apply (within_tOpt_optimum (by omega) (.inr (by omega)) (by omega)).bind
  intro b hb
  refine ⟨m + a + b, ⟨hlow, hhigh, a, b, ha, hb, rfl⟩, ?_⟩
  unfold saturatingAdd
  omega

/-- The split after one step costs less than the saturation value. -/
theorem splitCost_one_lt {c : ℕ} (hl : 2 ≤ l) (hs : 2 ≤ s) (hmax : l ≤ u64Max)
    (hc : splitCost l s 1 = .ok c) : c < u64Max := by
  unfold splitCost at hc
  rw [tOpt_short le_rfl] at hc
  obtain ⟨a, ha, hc⟩ := bind_eq_ok hc
  obtain rfl := Except.ok.inj ha
  obtain ⟨b, hb, hc⟩ := bind_eq_ok hc
  have hvalue := (Except.ok.inj hc).symm
  have hsmall : 1 + b < u64Max := by
    have hbig : 2 < u64Max := by decide
    rcases (within_tOpt_any (by omega) (by omega)).of_ok hb with ⟨-, rfl⟩ | ⟨hlong, r, hcost⟩
    · omega
    · have hbound := hcost.le_product hlong
      have hproduct := hcost.product
      have hpos := hcost.reps.pos hlong
      rcases Nat.lt_or_ge 1 r with htwo | hone
      · omega
      · obtain rfl : r = 1 := by omega
        omega
  simp only [saturatingAdd] at hvalue
  omega

end Costs

section Split

variable {l s : ℕ}

/-- The start value, or a split with its cost. -/
def Held (s : ℕ) (best : ℕ × Split l) : Prop :=
  best.1 = u64Max ∧ best.2.1 = 1 ∨ splitCost l s best.2.1 = .ok best.1

/-- The held split is at least as good as the one at `m`. -/
def Beats (s m : ℕ) (best : ℕ × Split l) : Prop :=
  ∃ c, splitCost l s m = .ok c ∧ ¬ Better c m best

theorem within_consider_held {m : ℕ} {best : ℕ × Split l} (hs : 2 ≤ s) (hmax : l ≤ u64Max)
    (hbest : Held s best) (hrange : 1 ≤ m ∧ m < l) :
    Within (· = Panic.overflow)
      (fun best' => Held s best' ∧ Beats s m best' ∧ ∀ m', Beats s m' best → Beats s m' best')
      (consider s m best) := by
  apply within_consider fun hout => absurd hrange hout
  intro h
  apply (within_splitCost h.1 h.2 hs hmax).returned.imp
  rintro cost ⟨hcost, -⟩
  constructor
  · intro hbetter
    refine ⟨.inr hcost, ⟨cost, hcost, ?_⟩, ?_⟩
    · dsimp only [Better]
      omega
    · rintro m' ⟨c, hc, hworse⟩
      refine ⟨c, hc, ?_⟩
      dsimp only [Better] at *
      omega
  · intro hworse
    exact ⟨hbest, ⟨cost, hcost, hworse⟩, fun m' hm' => hm'⟩

/-- The break points of one round. -/
def leftBreak (l s rho : ℕ) : ℕ := min (min (capacity s rho) u64Max) (l - 1)

def rightBreak (l s rho : ℕ) : ℕ := max (l - min (capacity (s - 1) rho) u64Max) 1

theorem breaks_in_range (hl : 2 ≤ l) (rho : ℕ) :
    (1 ≤ leftBreak l s rho ∧ leftBreak l s rho < l) ∧
      1 ≤ rightBreak l s rho ∧ rightBreak l s rho < l := by
  have hleft : 0 < capacity s rho := Nat.choose_pos (Nat.le_add_right _ _)
  have hright : 0 < capacity (s - 1) rho := Nat.choose_pos (Nat.le_add_right _ _)
  have hbig : 1 ≤ u64Max := by decide
  unfold leftBreak rightBreak
  omega

/-- The first split is among the break points. -/
theorem firstSplit_mem {r : ℕ} (hl : 2 ≤ l) (hmax : l ≤ u64Max) (hr : IsReps l s (r + 1)) :
    ∃ rho ≤ r + 1, firstSplit l s r = leftBreak l s rho ∨ firstSplit l s r = rightBreak l s rho := by
  have hbig : 1 ≤ u64Max := by decide
  unfold firstSplit
  cases r with
  | zero =>
    simp only [if_true, Nat.zero_add]
    rcases Nat.lt_or_ge 1 (l - capacity (s - 1) 1) with hlong | hshort
    · refine ⟨1, le_rfl, .inr ?_⟩
      unfold rightBreak
      omega
    · refine ⟨0, Nat.zero_le _, .inl ?_⟩
      unfold leftBreak
      rw [capacity_none]
      omega
  | succ r =>
    have hshort := hr.2 (r + 1) (by omega)
    have hmono : capacity s r ≤ capacity s (r + 1) := capacity_mono s (Nat.le_succ r)
    have hpos : 0 < capacity s r := Nat.choose_pos (Nat.le_add_right _ _)
    simp only [if_neg (Nat.succ_ne_zero r), Nat.add_sub_cancel]
    rcases Nat.lt_or_ge (capacity s r) (l - capacity (s - 1) (r + 1 + 1)) with hlong | hclose
    · refine ⟨r + 1 + 1, le_rfl, .inr ?_⟩
      unfold rightBreak
      omega
    · refine ⟨r, by omega, .inl ?_⟩
      unfold leftBreak
      omega

/-- With two slots or more the split is the least of the cheapest ones. -/
theorem within_split_least (h : 1 < l) (hs : 2 ≤ s) (hmax : l ≤ u64Max) :
    Within (· = Panic.overflow)
      (fun m : Split l => IsLeast {m | Minimises l s m} m.1) (binomialSplit h s) := by
  have hsplit := within_binomialSplit (s := s)
    (I := fun rounds best => Held s best ∧
      ∀ rho < rounds, Beats s (leftBreak l s rho) best ∧ Beats s (rightBreak l s rho) best)
    h (by omega) hmax ⟨.inl ⟨rfl, rfl⟩, fun rho hrho => absurd hrho (Nat.not_lt_zero rho)⟩
    (by
      rintro rho best ⟨hheld, hrounds⟩
      obtain ⟨hleft, hright⟩ := @breaks_in_range l s h rho
      apply (within_beta s rho).bind
      rintro _ ⟨rfl, -⟩
      apply (within_consider_held hs hmax hheld hleft).bind
      rintro best' ⟨hheld', hbeats, hkeep⟩
      apply (within_beta (s - 1) rho).bind
      rintro _ ⟨rfl, -⟩
      apply (within_consider_held hs hmax hheld' hright).imp
      rintro best'' ⟨hheld'', hbeats', hkeep'⟩
      refine ⟨hheld'', fun rho' hrho' => ?_⟩
      rcases Nat.lt_succ_iff_lt_or_eq.1 hrho' with hlt | rfl
      · obtain ⟨hl, hr⟩ := hrounds rho' hlt
        exact ⟨hkeep' _ (hkeep _ hl), hkeep' _ (hkeep _ hr)⟩
      · exact ⟨hkeep' _ hbeats, hbeats'⟩)
  apply hsplit.imp
  rintro m ⟨r, best, hr, ⟨hheld, hbeats⟩, rfl⟩
  obtain ⟨r, rfl⟩ := Nat.exists_eq_add_of_le' (hr.pos h)
  obtain ⟨s, rfl⟩ := Nat.exists_eq_add_of_le' (show 1 ≤ s by omega)
  obtain ⟨t, ht⟩ := exists_isOptimum (l := l) (s := s + 1) (.inr (Nat.le_add_left 1 s))
  have hfinite : best.1 < u64Max := by
    obtain ⟨c, hc, hworse⟩ := (hbeats 0 (Nat.zero_lt_succ _)).1
    have hone : leftBreak l (s + 1) 0 = 1 := by
      have hbig : 1 ≤ u64Max := by decide
      unfold leftBreak
      rw [capacity_none]
      omega
    rw [hone] at hc
    have hlt := splitCost_one_lt h hs hmax hc
    unfold Better at hworse
    omega
  have hcost : ∃ c, IsSplitCost l (s + 1) best.2.1 c ∧ best.1 = c := by
    rcases hheld with ⟨hstart, -⟩ | hheld
    · omega
    · obtain ⟨c, hc, hmin⟩ := (within_splitCost best.2.2.1 best.2.2.2 hs hmax).of_ok hheld
      exact ⟨c, hc, by omega⟩
  obtain ⟨c, hc, hbest⟩ := hcost
  have hlow : t ≤ c := (ht.isLeast_split h).2 ⟨_, hc⟩
  have hfirst := exists_firstSplit h ht hr
  have hbeatsFirst : Beats (s + 1) (firstSplit l (s + 1) r) best := by
    obtain ⟨rho, hrho, hmem⟩ := firstSplit_mem h hmax hr
    have hround := hbeats rho (Nat.lt_succ_of_le hrho)
    rcases hmem with heq | heq <;> rw [heq]
    · exact hround.1
    · exact hround.2
  obtain ⟨c', hc', hworse⟩ := hbeatsFirst
  obtain ⟨t', ht', hmin⟩ := (within_splitCost hfirst.1 hfirst.2.1 hs hmax).of_ok hc'
  have hleast := isLeast_firstSplit h ht hr
  obtain ⟨hlow', hhigh', a, b, ha, hb, rfl⟩ := ht'
  obtain ⟨-, -, a', b', ha', hb', hsum⟩ := hfirst
  obtain rfl := ha.unique ha'
  obtain rfl := hb.unique hb'
  unfold Better at hworse
  have hoptimal : c = t := by omega
  have hminimises := (hc.minimises_iff h ht).2 hoptimal
  have hsmaller := hleast.2 hminimises
  have hequal : best.2.1 = firstSplit l (s + 1) r := by omega
  rw [hequal]
  exact hleast

/-- A segment that the slots can reverse is split at the least of the cheapest splits. -/
theorem within_split_best (h : 1 < l) (hmax : l ≤ u64Max) (hfeasible : Feasible l s) :
    Within (· = Panic.overflow)
      (fun m : Split l => IsLeast {m | Minimises l s m} m.1) (binomialSplit h s) := by
  obtain ⟨hslots, hone⟩ := hfeasible.resolve_left (not_le.2 h)
  rcases Nat.lt_or_ge 1 s with htwo | hsingle
  · exact within_split_least h htwo hmax
  · obtain rfl : s = 1 := by omega
    apply (within_split_fits h hmax (hone rfl)).imp
    intro m hm
    obtain ⟨t, ht⟩ := exists_isOptimum (l := l) (s := 1) (.inr le_rfl)
    obtain ⟨r, hr⟩ := exists_isReps (l := l) (s := 1) (.inr le_rfl)
    obtain ⟨r, rfl⟩ := Nat.exists_eq_add_of_le' (hr.pos h)
    obtain ⟨-, hhigh, -, hright⟩ := firstSplit_touches h hr
    have hlast := hright.le_capacity
    rw [capacity_zero] at hlast
    have hleast := isLeast_firstSplit h ht hr
    rwa [show firstSplit l (0 + 1) r = m.1 by omega] at hleast

end Split

section Exact

variable {l s : ℕ}

/-- The arithmetic of the schedule stays within its words, at the split and in
both parts. -/
inductive Exact : ℕ → ℕ → Prop
  | single (s : ℕ) : Exact 1 s
  | split {l s m : ℕ} (long : 2 ≤ l) (least : IsLeast {m | Minimises l s m} m)
      (slots : s + 1 ≤ u64Max) (fits : SplitFits l s) (right : Exact (l - m) (s - 1))
      (left : Exact m s) : Exact l s

theorem fits_short (hl : l ≤ 1) : Fits l s := by
  intro r hr
  obtain rfl : r = 0 := by
    by_contra hpos
    have hbefore := hr.2 0 (Nat.pos_of_ne_zero hpos)
    rw [capacity_none] at hbefore
    omega
  rw [Nat.zero_mul]
  exact Nat.zero_le _

theorem within_tOpt_fits (hmax : l ≤ u64Max) :
    Within (· = Panic.overflow) (fun _ => 1 ≤ s → Fits l s) (tOpt l s) := by
  rcases Nat.eq_zero_or_pos s with rfl | hs
  · unfold tOpt
    split
    · exact fun hzero => absurd hzero (by decide)
    · rw [if_pos rfl]
      exact fun hzero => absurd hzero (by decide)
  · apply (within_tOpt_any hs hmax).imp
    rintro t (⟨hshort, -⟩ | ⟨-, r, hcost⟩) -
    · exact fits_short hshort
    · intro r' hr'
      rw [hr'.unique hcost.reps]
      exact hcost.product

theorem within_consider_fits {m : ℕ} (hmax : l ≤ u64Max) (hrange : 1 ≤ m ∧ m < l)
    (best : ℕ × Split l) :
    Within (· = Panic.overflow)
      (fun _ => (1 ≤ s → Fits m s) ∧ (1 ≤ s - 1 → Fits (l - m) (s - 1))) (consider s m best) := by
  apply within_consider fun hout => absurd hrange hout
  intro h
  apply (within_tOpt_fits (by omega)).bind
  intro left hleft
  apply (within_tOpt_fits (by omega)).bind
  intro right hright
  exact ⟨fun _ => ⟨hleft, hright⟩, fun _ => ⟨hleft, hright⟩⟩

/-- A split that is found has compared only costs that fit. -/
theorem within_split_fitting (h : 1 < l) (hs : 1 ≤ s) (hmax : l ≤ u64Max) :
    Within (· = Panic.overflow) (fun _ => s + 1 ≤ u64Max ∧ SplitFits l s) (binomialSplit h s) := by
  have hbig : 1 ≤ u64Max := by decide
  have hsplit := within_binomialSplit (s := s)
    (I := fun rounds _ => (1 ≤ rounds → SplitFits l s) ∧ (2 ≤ rounds → s + 1 ≤ u64Max)) h hs hmax
    ⟨fun hzero => absurd hzero (by decide), fun hzero => absurd hzero (by decide)⟩
    (by
      rintro rho best ⟨hfits, hslots⟩
      obtain ⟨hleft, hright⟩ := @breaks_in_range l s h rho
      apply (within_beta s rho).bind
      rintro _ ⟨rfl, hsum⟩
      apply (within_consider_fits (s := s) hmax hleft best).bind
      rintro best' ⟨-, hone⟩
      apply (within_beta (s - 1) rho).bind
      rintro _ ⟨rfl, -⟩
      apply (within_consider_fits (s := s) hmax hright best').imp
      rintro best'' ⟨hlast, -⟩
      refine ⟨fun _ => ?_, fun htwo => by omega⟩
      rcases Nat.eq_zero_or_pos rho with rfl | hpos
      · have hleftOne : leftBreak l s 0 = 1 := by
          unfold leftBreak
          rw [capacity_none]
          omega
        have hrightLast : rightBreak l s 0 = l - 1 := by
          unfold rightBreak
          rw [capacity_none]
          omega
        rw [hleftOne] at hone
        rw [hrightLast] at hlast
        intro q hq hlow hhigh
        rcases Nat.lt_or_ge q s with hlt | hge
        · obtain rfl : q = s - 1 := by omega
          exact hone hq
        · obtain rfl : q = s := by omega
          exact hlast hs
      · exact hfits hpos)
  apply hsplit.imp
  rintro m ⟨r, best, hr, ⟨hfits, hslots⟩, -⟩
  have hpos := hr.pos h
  exact ⟨hslots (by omega), hfits (by omega)⟩

/-- Chains of up to `2 ^ 32` steps are scheduled without overflow. -/
theorem Small.exact (hsmall : Small l s) (hl : 1 ≤ l) (hwork : l ≤ 1 ∨ 1 ≤ s) : Exact l s := by
  induction l using Nat.strongRecOn generalizing s with
  | ind l ih =>
    rcases Nat.lt_or_ge 1 l with hlong | hshort
    · obtain ⟨s, rfl⟩ := Nat.exists_eq_add_of_le' (hwork.resolve_left (not_le.2 hlong))
      obtain ⟨t, ht⟩ := exists_isOptimum (l := l) (s := s + 1) (.inr (Nat.le_add_left 1 s))
      obtain ⟨r, hr, -⟩ := ht.line
      obtain ⟨r, rfl⟩ := Nat.exists_eq_add_of_le' (hr.pos hlong)
      obtain ⟨hlow, hhigh, -, hright⟩ := firstSplit_touches hlong hr
      exact .split hlong (isLeast_firstSplit hlong ht hr) hsmall.slots hsmall.splitFits
        (ih _ (by omega) (hsmall.mono (by omega) (Nat.le_succ s)) (by omega)
          hright.workable)
        (ih _ hhigh (hsmall.mono hhigh.le le_rfl) hlow (.inr (Nat.le_add_left 1 s)))
    · obtain rfl : l = 1 := by omega
      exact .single s

end Exact

section Sweep

variable {S B : Type} (forward : ℕ → S → S) (reverse : ℕ → S → B → B) (x0 : S)

theorem advance_forwardSteps (first last : ℕ) (state : S) (p : Progress S) :
    (advance forward first last state p).2.stats.forwardSteps =
      p.stats.forwardSteps + (last - first) := by
  have hfold : ∀ (steps : List ℕ) (q : S × Progress S),
      (steps.foldl (fun q i => (forward i q.1, q.2.step)) q).2.stats.forwardSteps =
        q.2.stats.forwardSteps + steps.length := by
    intro steps
    induction steps with
    | nil => exact fun q => rfl
    | cons i steps ih =>
      intro q
      rw [List.foldl_cons, ih, List.length_cons]
      simp only [Progress.step]
      omega
  rw [advance, hfold, List.length_range']

/-- The sweep makes the least number of evaluations. -/
theorem within_binomialSweep_count (span : ℕ) (hmax : span ≤ u64Max) :
    ∀ (state : S) (first last slots : ℕ) (bar : B) (p : Progress S) (held : ℕ),
      last - first = span → first < last → Feasible span slots →
        Within (· = Panic.overflow) (fun outcome => ∃ t, IsOptimum span slots t ∧
            outcome.2.stats.forwardSteps = p.stats.forwardSteps + t)
          (binomialSweep forward reverse state first last slots bar p held) := by
  induction span using Nat.strongRecOn with
  | ind span ih =>
    intro state first last slots bar p held hspan hlt hfeasible
    rw [binomialSweep]
    split
    case isTrue h =>
      obtain rfl : span = 1 := by omega
      exact ⟨0, isOptimum_one slots, rfl⟩
    case isFalse h =>
      subst hspan
      apply (within_split_best (not_le.1 h) hmax hfeasible).returned.bind
      rintro m ⟨hok, hleast⟩
      obtain ⟨hright, hleft⟩ := (within_split_feasible (not_le.1 h) hmax hfeasible).of_ok hok
      have hlow := m.2.1
      have hhigh := m.2.2
      have hsteps := advance_forwardSteps forward first (first + m.1) state (p.hold held)
      have hlength : last - first - m.1 = last - (first + m.1) := by omega
      rw [hlength] at hright
      dsimp only
      apply (ih _ (by omega) (by omega) _ (first + m.1) last (slots - 1) bar _ (held + 1) rfl
        (by omega) hright).bind
      rintro ⟨bar₁, p₁⟩ ⟨b, hb, hcount₁⟩
      rw [← Nat.add_sub_cancel_left first m.1] at hleft
      apply (ih _ (by omega) (by omega) state first (first + m.1) slots bar₁ p₁ held rfl (by omega)
        hleft).imp
      rintro ⟨bar₂, p₂⟩ ⟨a, ha, hcount₂⟩
      rw [Nat.add_sub_cancel_left] at ha
      obtain ⟨c, hc, hcheapest⟩ := hleast.1
      obtain ⟨t, ht⟩ := exists_isOptimum (hfeasible.imp_right And.left)
      obtain rfl := hcheapest.unique (ht.isLeast_split (not_le.1 h))
      obtain ⟨-, -, a', b', ha', hb', hsum⟩ := hc
      rw [hlength] at hb'
      obtain rfl := ha.unique ha'
      obtain rfl := hb.unique hb'
      refine ⟨_, ht, ?_⟩
      have hhold : (p.hold held).stats.forwardSteps = p.stats.forwardSteps := rfl
      dsimp only at hcount₁ hcount₂ ⊢
      omega

/-- A sweep that ends has computed within its words. -/
theorem exact_of_binomialSweep (span : ℕ) (hmax : span ≤ u64Max) :
    ∀ (state : S) (first last slots : ℕ) (bar : B) (p : Progress S) (held : ℕ)
      (outcome : B × Progress S), last - first = span → first < last → Feasible span slots →
        binomialSweep forward reverse state first last slots bar p held = .ok outcome →
          Exact span slots := by
  induction span using Nat.strongRecOn with
  | ind span ih =>
    intro state first last slots bar p held outcome hspan hlt hfeasible hok
    rw [binomialSweep] at hok
    split at hok
    case isTrue h =>
      obtain rfl : span = 1 := by omega
      exact .single slots
    case isFalse h =>
      subst hspan
      obtain ⟨m, hsplit, hok⟩ := bind_eq_ok hok
      obtain ⟨⟨bar₁, p₁⟩, hok₁, hok₂⟩ := bind_eq_ok hok
      have hlow := m.2.1
      have hhigh := m.2.2
      have hslots := (hfeasible.resolve_left h).1
      have hleast := (within_split_best (not_le.1 h) hmax hfeasible).of_ok hsplit
      obtain ⟨hright, hleft⟩ := (within_split_feasible (not_le.1 h) hmax hfeasible).of_ok hsplit
      obtain ⟨hfit, hfits⟩ := (within_split_fitting (not_le.1 h) hslots hmax).of_ok hsplit
      apply Exact.split (not_le.1 h) hleast hfit hfits
      · rw [show last - first - m.1 = last - (first + m.1) by omega] at hright ⊢
        exact ih _ (by omega) (by omega) _ _ _ _ _ _ _ _ rfl (by omega) hright hok₁
      · rw [← Nat.add_sub_cancel_left first m.1] at hleft ⊢
        exact ih _ (by omega) (by omega) _ _ _ _ _ _ _ _ rfl (by omega) hleft hok₂

theorem Exact.fine {span slots : ℕ} (h : Exact span slots) (hmax : span ≤ u64Max) :
    ∀ (state : S) (first last : ℕ) (bar : B) (p : Progress S) (held : ℕ), last - first = span →
      Feasible span slots →
        Fine (binomialSweep forward reverse state first last slots bar p held) := by
  induction h with
  | single slots =>
    intro state first last bar p held hspan _
    rw [binomialSweep, dif_pos (by omega)]
    trivial
  | @split span slots m long least hslots fits _ _ ihright ihleft =>
    intro state first last bar p held hspan hfeasible
    subst hspan
    rw [binomialSweep, dif_neg (by omega)]
    have hpos := (hfeasible.resolve_left (by omega)).1
    apply fine_bind (fine_binomialSplit long hmax hslots hpos fits)
    intro m' hsplit
    have hleast := (within_split_best long hmax hfeasible).of_ok hsplit
    obtain rfl := least.unique hleast
    obtain ⟨hright, hleft⟩ := (within_split_feasible long hmax hfeasible).of_ok hsplit
    have hlow := m'.2.1
    have hhigh := m'.2.2
    apply fine_bind
    · exact ihright (by omega) _ _ _ _ _ _ (by omega) hright
    · rintro ⟨bar₁, p₁⟩ _
      exact ihleft (by omega) _ _ _ _ _ _ (by omega) hleft

/-- What the binomial schedule promises for a chain: the sweep makes as many
evaluations as the closed formula says, no recursive schedule makes fewer, the
formula solves the recurrence over all splits, and the split is a cheapest one. -/
structure SchedulesOptimally (steps budget : ℕ) (seed : B) : Prop where
  evaluations : ∃ outcome r, checkpointedAdjointBinomial forward reverse x0 steps budget seed =
      .ok outcome ∧
    IsReps steps budget r ∧
    binomialReevals steps budget = .ok outcome.2.stats.forwardSteps ∧
    outcome.2.stats.forwardSteps = r * steps - capacity (budget + 1) (r - 1) ∧
    IsLeast {n | Plan steps budget n} outcome.2.stats.forwardSteps ∧
    (2 ≤ steps → IsLeast {c | ∃ m, IsSplitCost steps budget m c} outcome.2.stats.forwardSteps)
  split : ∀ h : 1 < steps, ∃ m, binomialSplit h budget = .ok m ∧ Minimises steps budget m.1

theorem binomialReevals_eq_tOpt {steps budget : ℕ} (hmax : steps ≤ u64Max) (hbudget : 1 ≤ budget) :
    binomialReevals steps budget = tOpt steps budget := by
  unfold binomialReevals tOpt
  split
  · rfl
  case isFalse hlong =>
    rw [if_neg (by omega)]
    cases hreps : reps steps budget with
    | error e => rfl
    | ok r =>
      have hr := (within_reps hbudget (by omega) hmax).of_ok hreps
      have hpos := hr.pos (by omega)
      simp only [bind, Except.bind, if_neg (by omega : ¬ r = 0), subU64, if_pos hpos]

/-- A chain of a step at least within the bound of its slots. -/
theorem feasible_chain {steps budget : ℕ} (hbudget : 1 ≤ budget)
    (h : 2 ≤ budget ∨ FitsOneSlot steps) : Feasible steps budget :=
  .inr ⟨hbudget, fun hone => h.resolve_left (by omega)⟩

/-- A binomial sweep that ends has kept within its words and within the bound of one slot. -/
theorem checkpointedAdjointBinomial_condition {steps budget : ℕ} (hmax : steps ≤ u64Max)
    (hbudget : 1 ≤ budget) (seed : B) {outcome : B × Progress S}
    (hok : checkpointedAdjointBinomial forward reverse x0 steps budget seed = .ok outcome) :
    (steps = 0 ∨ Exact steps budget) ∧ (2 ≤ budget ∨ FitsOneSlot steps) := by
  unfold checkpointedAdjointBinomial at hok
  by_cases hzero : steps = 0
  · subst hzero
    exact ⟨.inl rfl, .inr (by decide : 0 * (0 - 1) < 2 ^ 63)⟩
  rw [if_neg hzero, if_neg (not_lt_of_ge hbudget)] at hok
  have hcondition : 2 ≤ budget ∨ FitsOneSlot steps := by
    rcases Nat.lt_or_ge 1 budget with htwo | hone
    · exact .inl htwo
    · right
      by_contra hunfit
      obtain rfl : budget = 1 := by omega
      rw [← Nat.sub_zero steps] at hunfit
      exact binomialSweep_unfit forward reverse (by omega) hunfit outcome hok
  exact ⟨.inr (exact_of_binomialSweep forward reverse steps hmax _ _ _ _ _ _ _ _ rfl
    (Nat.pos_of_ne_zero hzero) (feasible_chain hbudget hcondition) hok), hcondition⟩

theorem SchedulesOptimally.condition {forward : ℕ → S → S} {reverse : ℕ → S → B → B} {x0 : S}
    {steps budget : ℕ} {seed : B} (h : SchedulesOptimally forward reverse x0 steps budget seed)
    (hsteps : 1 ≤ steps) (hmax : steps ≤ u64Max) (hbudget : 1 ≤ budget) :
    (Exact steps budget ∧ Fits steps budget) ∧ (2 ≤ budget ∨ FitsOneSlot steps) := by
  obtain ⟨outcome, r, hok, -, hreevals, -⟩ := h.evaluations
  obtain ⟨hwords, hcondition⟩ :=
    checkpointedAdjointBinomial_condition forward reverse x0 hmax hbudget seed hok
  rw [binomialReevals_eq_tOpt hmax hbudget] at hreevals
  exact ⟨⟨hwords.resolve_left (by omega), (within_tOpt_fits hmax).of_ok hreevals hbudget⟩,
    hcondition⟩

theorem schedulesOptimally_of_exact {steps budget : ℕ} (hsteps : 1 ≤ steps)
    (hmax : steps ≤ u64Max) (hbudget : 1 ≤ budget) (hexact : Exact steps budget)
    (hfits : Fits steps budget) (h : 2 ≤ budget ∨ FitsOneSlot steps) (seed : B) :
    SchedulesOptimally forward reverse x0 steps budget seed := by
  have hfeasible := feasible_chain hbudget h
  obtain ⟨outcome, hok, t, ht, hcount⟩ :=
    (hexact.fine forward reverse hmax x0 0 steps seed .start 1 (Nat.sub_zero _) hfeasible).exists_ok
      (within_binomialSweep_count forward reverse steps hmax x0 0 steps budget seed .start 1 rfl
        hsteps hfeasible)
  have hstart : (Progress.start : Progress S).stats.forwardSteps = 0 := rfl
  obtain rfl : outcome.2.stats.forwardSteps = t := by omega
  have hslots : 2 ≤ steps → budget + 1 ≤ u64Max := by
    intro hlong
    cases hexact with
    | single => omega
    | split _ _ hslots => exact hslots
  have hreevals : binomialReevals steps budget = .ok outcome.2.stats.forwardSteps := by
    rw [binomialReevals_eq_tOpt hmax hbudget]
    rcases Nat.lt_or_ge 1 steps with hlong | hshort
    · obtain ⟨t, htOpt, ht'⟩ := (fine_tOpt hmax (hslots hlong) fun _ => hfits).exists_ok
        (within_tOpt_optimum hsteps (.inr hbudget) hmax)
      rw [htOpt, ht.unique ht']
    · obtain rfl : steps = 1 := by omega
      rw [tOpt_short le_rfl, ht.unique (isOptimum_one budget)]
  obtain ⟨r, hr, hclosed⟩ := id ht
  constructor
  · refine ⟨outcome, r, ?_, hr, hreevals, hclosed, ht.isLeast_plan hsteps,
      fun hlong => ht.isLeast_split hlong⟩
    unfold checkpointedAdjointBinomial
    rwa [if_neg (by omega), if_neg (by omega)]
  · intro hlong
    have hsplitFits : SplitFits steps budget := by
      cases hexact with
      | single => exact absurd hlong (lt_irrefl 1)
      | split _ _ _ hfits => exact hfits
    obtain ⟨m, hm, hleast⟩ := (fine_binomialSplit hlong hmax (hslots hlong) hbudget hsplitFits).exists_ok
      (within_split_best hlong hmax hfeasible)
    exact ⟨m, hm, hleast.1⟩

/-- The schedule is optimal exactly when its arithmetic stays within its words, as
it does for up to `2 ^ 32` steps, and, with one slot, the chain is within the bound. -/
theorem schedulesOptimally_iff (seed : B) {steps budget : ℕ} (hsteps : 1 ≤ steps)
    (hmax : steps ≤ u64Max) (hbudget : 1 ≤ budget) :
    (SchedulesOptimally forward reverse x0 steps budget seed ↔
      (Exact steps budget ∧ Fits steps budget) ∧ (2 ≤ budget ∨ steps * (steps - 1) < 2 ^ 63)) ∧
    (steps ≤ 2 ^ 32 → budget < u64Max → Exact steps budget ∧ Fits steps budget) ∧
    ∀ s r, s ≤ u64Max → r ≤ u64Max → capacity s r ≤ u64Max → beta s r = .ok (capacity s r) := by
  refine ⟨⟨fun h => h.condition hsteps hmax hbudget, ?_⟩, ?_, fun s r => beta_exact⟩
  · rintro ⟨⟨hexact, hfits⟩, hcondition⟩
    exact schedulesOptimally_of_exact forward reverse x0 hsteps hmax hbudget hexact hfits
      hcondition seed
  · intro hshort hslots
    have hsmall : Small steps budget := ⟨hshort, hslots⟩
    exact ⟨hsmall.exact hsteps (.inr hbudget), hsmall.fits hbudget⟩

end Sweep

theorem schedulesOptimally_ten :
    (SchedulesOptimally (fun _ s : ℕ => s) (fun _ _ bar : ℕ => bar) 0 10 3 0 ↔
      (Exact 10 3 ∧ Fits 10 3) ∧ (2 ≤ 3 ∨ 10 * (10 - 1) < 2 ^ 63)) ∧
    (10 ≤ 2 ^ 32 → 3 < u64Max → Exact 10 3 ∧ Fits 10 3) ∧
    ∀ s r, s ≤ u64Max → r ≤ u64Max → capacity s r ≤ u64Max → beta s r = .ok (capacity s r) :=
  schedulesOptimally_iff _ _ _ 0 (by decide) (by decide) (by decide)

/-- With one slot and `2 ^ 32` steps every capacity and every product fits, but the
schedule panics. -/
theorem not_schedulesOptimally_long :
    (∀ r < 2 ^ 32, capacity 1 r < u64Max ∧ capacity 2 r < u64Max) ∧
      Exact (2 ^ 32) 1 ∧ Fits (2 ^ 32) 1 ∧
      ¬ SchedulesOptimally (fun _ s : ℕ => s) (fun _ _ bar : ℕ => bar) 0 (2 ^ 32) 1 0 := by
  have hsmall : Small (2 ^ 32) 1 := ⟨le_rfl, by decide⟩
  refine ⟨capacities_fit, hsmall.exact (by decide) (.inr le_rfl), hsmall.fits le_rfl, ?_⟩
  intro h
  obtain ⟨outcome, r, hok, -⟩ := h.evaluations
  rw [checkpointedAdjointBinomial_unfit _ _ _ le_rfl (by unfold FitsOneSlot; decide)] at hok
  cases hok

end FrankenSim.Revolve
