import FrankenSim.Revolve.Capacity
import Mathlib.Order.Bounds.Basic

/-!
# Recursive schedules and their least cost

A schedule advances to a split, reverses the right part with one slot less and
then the left part. Its least number of evaluations is piecewise linear in the
length: every number of sweeps gives a line below it, and the line touches where
the length lies between two capacities. A split is the cheapest one exactly when
both parts lie where the lines of their numbers of sweeps touch.
-/
namespace FrankenSim.Revolve

/-- A recursive schedule: its length, its slots and its evaluations. -/
inductive Plan : ℕ → ℕ → ℕ → Prop
  | single (s : ℕ) : Plan 1 s 0
  | split {m k s a b : ℕ} (left : Plan m (s + 1) a) (right : Plan k s b) :
      Plan (m + k) (s + 1) (m + a + b)

/-- The closed formula for the least number of evaluations. -/
def IsOptimum (l s t : ℕ) : Prop := ∃ r, IsReps l s r ∧ t = r * l - capacity (s + 1) (r - 1)

/-- The cost of a split at `m`, with optimal parts. -/
def IsSplitCost (l s m c : ℕ) : Prop :=
  1 ≤ m ∧ m < l ∧ ∃ a b, IsOptimum m s a ∧ IsOptimum (l - m) (s - 1) b ∧ c = m + a + b

/-- The split at `m` is a cheapest one. -/
def Minimises (l s m : ℕ) : Prop :=
  ∃ c, IsSplitCost l s m c ∧ IsLeast {c | ∃ m, IsSplitCost l s m c} c

section Lines

/-- The part of a line that its slope does not account for. -/
def offset (s r : ℕ) : ℕ := (s + r).choose (s + 1)

theorem offset_zero (s : ℕ) : offset s 0 = 0 := Nat.choose_eq_zero_of_lt (Nat.lt_succ_self s)

theorem offset_succ (s r : ℕ) : offset s (r + 1) = capacity (s + 1) r := by
  unfold offset capacity
  rw [show s + (r + 1) = s + 1 + r by ring]

theorem offset_step (s r : ℕ) : offset s (r + 1) = offset s r + capacity s r := by
  unfold offset capacity
  rw [show s + (r + 1) = s + r + 1 by ring, Nat.choose_succ_succ, Nat.add_comm]

/-- The offset of a split segment is that of its parts. -/
theorem offset_split (s r : ℕ) :
    offset (s + 1) (r + 1) = offset (s + 1) r + offset s (r + 1) := by
  unfold offset
  rw [show s + 1 + (r + 1) = s + 1 + r + 1 by ring, Nat.choose_succ_succ, Nat.add_comm,
    show s + 1 + r = s + (r + 1) by ring]

/-- The line of slope `r` meets the least cost at the length `l`. -/
structure Touches (l s r : ℕ) : Prop where
  le_capacity : l ≤ capacity s r
  capacity_le : ∀ q < r, capacity s q ≤ l

theorem IsReps.touches {l s r : ℕ} (h : IsReps l s r) : Touches l s r :=
  ⟨h.1, fun q hq => (h.2 q hq).le⟩

/-- Only a segment of a step at most is on a line without slots. -/
theorem Touches.workable {l s r : ℕ} (h : Touches l s r) : l ≤ 1 ∨ 1 ≤ s := by
  rcases Nat.eq_zero_or_pos s with rfl | hs
  · exact .inl (h.le_capacity.trans_eq (capacity_zero r))
  · exact .inr hs

theorem offset_le_product {l s r : ℕ} (h : ∀ q < r, capacity s q ≤ l) : offset s r ≤ r * l := by
  induction r with
  | zero => exact (offset_zero s).trans_le (Nat.zero_le _)
  | succ r ih =>
    have hlast := h r (Nat.lt_succ_self r)
    have hrest := ih fun q hq => h q (by omega)
    rw [offset_step, Nat.succ_mul]
    exact Nat.add_le_add hrest hlast

/-- Beyond the capacities of its slopes the steeper line is the higher one. -/
theorem line_le_steeper {l s q : ℕ} (d : ℕ) (h : ∀ i < q + d, capacity s i ≤ l) :
    q * l + offset s (q + d) ≤ (q + d) * l + offset s q := by
  induction d with
  | zero => exact le_refl _
  | succ d ih =>
    have hlast := h (q + d) (by omega)
    have hrest := ih fun i hi => h i (by omega)
    rw [← Nat.add_assoc, offset_step, Nat.succ_mul]
    omega

/-- Up to the capacity of its slope a line is higher than the steeper ones. -/
theorem line_le_flatter {l s q : ℕ} (h : l ≤ capacity s q) (d : ℕ) :
    (q + d) * l + offset s q ≤ q * l + offset s (q + d) := by
  induction d with
  | zero => exact le_refl _
  | succ d ih =>
    have hlast : l ≤ capacity s (q + d) := h.trans (capacity_mono s (Nat.le_add_right q d))
    rw [← Nat.add_assoc, offset_step, Nat.succ_mul]
    omega

/-- No line is above the one that touches. -/
theorem Touches.line_le {l s r : ℕ} (h : Touches l s r) (q : ℕ) :
    q * l + offset s r ≤ r * l + offset s q := by
  rcases le_total q r with hle | hle
  · obtain ⟨d, rfl⟩ := Nat.exists_eq_add_of_le hle
    exact line_le_steeper d h.capacity_le
  · obtain ⟨d, rfl⟩ := Nat.exists_eq_add_of_le hle
    exact line_le_flatter h.le_capacity d

end Lines

section Optimum

variable {l m k s t : ℕ}

/-- The closed formula is the value of a touching line. -/
theorem IsOptimum.line (h : IsOptimum l s t) : ∃ r, IsReps l s r ∧ t + offset s r = r * l := by
  obtain ⟨r, hr, rfl⟩ := h
  refine ⟨r, hr, ?_⟩
  cases r with
  | zero => simp [offset_zero]
  | succ r =>
    have hle := offset_le_product hr.touches.capacity_le
    rw [offset_succ] at hle ⊢
    exact Nat.sub_add_cancel hle

theorem IsReps.isOptimum {r : ℕ} (hr : IsReps l s r) (ht : t + offset s r = r * l) :
    IsOptimum l s t := by
  refine ⟨r, hr, ?_⟩
  cases r with
  | zero =>
    rw [offset_zero] at ht
    simpa using ht
  | succ r =>
    rw [offset_succ] at ht
    exact Nat.eq_sub_of_add_eq ht

theorem exists_isReps (h : l ≤ 1 ∨ 1 ≤ s) : ∃ r, IsReps l s r := by
  have hexists : ∃ r, l ≤ capacity s r := by
    rcases h with hl | hs
    · exact ⟨0, hl.trans_eq (capacity_none s).symm⟩
    · exact ⟨l, (lt_capacity hs l).le⟩
  classical
  exact ⟨Nat.find hexists, Nat.find_spec hexists, fun r hr => not_le.1 (Nat.find_min hexists hr)⟩

theorem IsReps.unique {r r' : ℕ} (h : IsReps l s r) (h' : IsReps l s r') : r = r' := by
  rcases Nat.lt_trichotomy r r' with hlt | heq | hgt
  · exact absurd h.1 (not_le.2 (h'.2 r hlt))
  · exact heq
  · exact absurd h'.1 (not_le.2 (h.2 r' hgt))

theorem exists_isOptimum (h : l ≤ 1 ∨ 1 ≤ s) : ∃ t, IsOptimum l s t := by
  obtain ⟨r, hr⟩ := exists_isReps h
  exact ⟨_, r, hr, rfl⟩

theorem IsOptimum.unique {t' : ℕ} (h : IsOptimum l s t) (h' : IsOptimum l s t') : t = t' := by
  obtain ⟨r, hr, rfl⟩ := h
  obtain ⟨r', hr', rfl⟩ := h'
  rw [hr.unique hr']

/-- Every line is a lower bound of the least cost. -/
theorem IsOptimum.line_le (h : IsOptimum l s t) (q : ℕ) : q * l ≤ t + offset s q := by
  obtain ⟨r, hr, ht⟩ := h.line
  have hline := hr.touches.line_le q
  omega

/-- The least cost is on a line exactly where the line touches. -/
theorem IsOptimum.touches_iff (h : IsOptimum l s t) (q : ℕ) :
    t + offset s q = q * l ↔ Touches l s q := by
  constructor
  · intro hq
    constructor
    · have hnext := h.line_le (q + 1)
      rw [offset_step, Nat.succ_mul] at hnext
      omega
    · intro i hi
      obtain ⟨p, rfl⟩ := Nat.exists_eq_add_of_le' (show 1 ≤ q by omega)
      have hprevious := h.line_le p
      rw [offset_step, Nat.succ_mul] at hq
      exact (capacity_mono s (Nat.lt_succ_iff.1 hi)).trans (by omega)
  · intro hq
    obtain ⟨r, -, ht⟩ := h.line
    have hline := hq.line_le r
    have hbound := h.line_le q
    omega

theorem isOptimum_one (s : ℕ) : IsOptimum 1 s 0 :=
  ⟨0, ⟨(capacity_none s).ge, fun r hr => absurd hr (Nat.not_lt_zero r)⟩, by simp⟩

/-- A segment of two steps or more needs a slot. -/
theorem IsOptimum.slot (h : IsOptimum l s t) (hl : 2 ≤ l) : 1 ≤ s := by
  by_contra hnone
  obtain ⟨r, ⟨henough, -⟩, -⟩ := h
  obtain rfl : s = 0 := by omega
  rw [capacity_zero] at henough
  omega

/-- A split costs at least the least number of evaluations. -/
theorem IsOptimum.le_split {a b : ℕ} (h : IsOptimum (m + k) (s + 1) t)
    (ha : IsOptimum m (s + 1) a) (hb : IsOptimum k s b) : t ≤ m + a + b := by
  obtain ⟨r, -, ht⟩ := h.line
  cases r with
  | zero => omega
  | succ r =>
    have hleft := ha.line_le r
    have hright := hb.line_le (r + 1)
    rw [offset_split, Nat.mul_add, Nat.succ_mul r m] at ht
    omega

/-- A split costs as much exactly when both parts touch their lines. -/
theorem IsOptimum.split_iff {a b r : ℕ} (ha : IsOptimum m (s + 1) a) (hb : IsOptimum k s b)
    (ht : t + offset (s + 1) (r + 1) = (r + 1) * (m + k)) :
    t = m + a + b ↔ Touches m (s + 1) r ∧ Touches k s (r + 1) := by
  have hleft := ha.line_le r
  have hright := hb.line_le (r + 1)
  rw [offset_split, Nat.mul_add, Nat.succ_mul r m] at ht
  rw [← ha.touches_iff, ← hb.touches_iff]
  omega

/-- The least length of the left part for which both parts touch. -/
def firstSplit (l s r : ℕ) : ℕ :=
  max 1 (max (if r = 0 then 0 else capacity s (r - 1)) (l - capacity (s - 1) (r + 1)))

theorem firstSplit_touches {r : ℕ} (hl : 2 ≤ l) (hr : IsReps l (s + 1) (r + 1)) :
    1 ≤ firstSplit l (s + 1) r ∧ firstSplit l (s + 1) r < l ∧
      Touches (firstSplit l (s + 1) r) (s + 1) r ∧
      Touches (l - firstSplit l (s + 1) r) s (r + 1) := by
  have henough := hr.1
  have hshort := hr.2 r (Nat.lt_succ_self r)
  rw [capacity_pascal] at henough
  have hsmaller : capacity s r ≤ capacity s (r + 1) := capacity_mono s (Nat.le_succ r)
  have hpos : 1 ≤ capacity s r := Nat.choose_pos (Nat.le_add_right _ _)
  cases r with
  | zero =>
    rw [capacity_none, Nat.zero_add] at henough
    have hone : firstSplit l (s + 1) 0 = 1 := by
      simp only [firstSplit, if_true, Nat.add_sub_cancel, Nat.zero_add]
      omega
    rw [hone]
    refine ⟨le_rfl, by omega, ⟨by rw [capacity_none], by omega⟩,
      ⟨by rw [Nat.zero_add]; omega, ?_⟩⟩
    intro q hq
    obtain rfl : q = 0 := by omega
    rw [capacity_none]
    omega
  | succ r =>
    rw [capacity_pascal] at henough hshort
    have hgrow : capacity (s + 1) r ≤ capacity (s + 1) (r + 1) := capacity_mono _ (Nat.le_succ r)
    have hone : 1 ≤ capacity (s + 1) r := Nat.choose_pos (Nat.le_add_right _ _)
    have hsplit : firstSplit l (s + 1) (r + 1) =
        max (capacity (s + 1) r) (l - capacity s (r + 1 + 1)) := by
      simp only [firstSplit, Nat.add_sub_cancel, if_neg (Nat.succ_ne_zero r)]
      omega
    rw [hsplit]
    refine ⟨by omega, by omega, ⟨?_, ?_⟩, ⟨by omega, ?_⟩⟩
    · rw [capacity_pascal]
      omega
    · intro q hq
      have hle := capacity_mono (s + 1) (Nat.lt_succ_iff.1 hq)
      omega
    · intro q hq
      have hle := capacity_mono s (Nat.lt_succ_iff.1 hq)
      omega

end Optimum

section Recurrence

variable {l m s t c : ℕ}

/-- Both parts of the first split are optimal and together cost the least. -/
theorem exists_firstSplit {r : ℕ} (hl : 2 ≤ l) (h : IsOptimum l (s + 1) t)
    (hr : IsReps l (s + 1) (r + 1)) : IsSplitCost l (s + 1) (firstSplit l (s + 1) r) t := by
  obtain ⟨hlow, hhigh, hleft, hright⟩ := firstSplit_touches hl hr
  obtain ⟨a, ha⟩ := exists_isOptimum (l := firstSplit l (s + 1) r) (s := s + 1)
    (.inr (Nat.le_add_left 1 s))
  obtain ⟨b, hb⟩ := exists_isOptimum hright.workable
  refine ⟨hlow, hhigh, a, b, ha, hb, ?_⟩
  obtain ⟨r', hr', ht⟩ := h.line
  obtain rfl := hr.unique hr'
  have hsum : firstSplit l (s + 1) r + (l - firstSplit l (s + 1) r) = l := by omega
  rw [← hsum] at ht
  exact (ha.split_iff hb ht).2 ⟨hleft, hright⟩

/-- The least cost is the cost of a cheapest split. -/
theorem IsOptimum.isLeast_split (hl : 2 ≤ l) (h : IsOptimum l s t) :
    IsLeast {c | ∃ m, IsSplitCost l s m c} t := by
  obtain ⟨s, rfl⟩ := Nat.exists_eq_add_of_le' (h.slot hl)
  obtain ⟨r, hr, -⟩ := h.line
  obtain ⟨r, rfl⟩ := Nat.exists_eq_add_of_le' (hr.pos hl)
  constructor
  · exact ⟨_, exists_firstSplit hl h hr⟩
  · rintro c ⟨m, -, hm, a, b, ha, hb, rfl⟩
    have hsum : m + (l - m) = l := by omega
    rw [← hsum] at h
    exact h.le_split ha hb

theorem IsSplitCost.minimises_iff (hl : 2 ≤ l) (h : IsOptimum l s t) (hm : IsSplitCost l s m c) :
    Minimises l s m ↔ c = t := by
  have hleast := h.isLeast_split hl
  constructor
  · rintro ⟨c', hm', hc'⟩
    obtain ⟨-, -, a, b, ha, hb, rfl⟩ := hm
    obtain ⟨-, -, a', b', ha', hb', rfl⟩ := hm'
    rw [ha.unique ha', hb.unique hb']
    exact hc'.unique hleast
  · rintro rfl
    exact ⟨c, hm, hleast⟩

/-- The first split is the least of the cheapest ones. -/
theorem isLeast_firstSplit {r : ℕ} (hl : 2 ≤ l) (h : IsOptimum l (s + 1) t)
    (hr : IsReps l (s + 1) (r + 1)) :
    IsLeast {m | Minimises l (s + 1) m} (firstSplit l (s + 1) r) := by
  have hfirst := exists_firstSplit hl h hr
  refine ⟨(hfirst.minimises_iff hl h).2 rfl, ?_⟩
  rintro m ⟨c, hm, hc⟩
  obtain rfl := hc.unique (h.isLeast_split hl)
  obtain ⟨hlow, hhigh, a, b, ha, hb, hcost⟩ := hm
  obtain ⟨r', hr', ht⟩ := h.line
  obtain rfl := hr.unique hr'
  have hsum : m + (l - m) = l := by omega
  rw [← hsum] at ht
  obtain ⟨hleft, hright⟩ := (ha.split_iff hb ht).1 hcost
  have hupper := hright.le_capacity
  unfold firstSplit
  rw [Nat.add_sub_cancel]
  split
  case isTrue => omega
  case isFalse hpos =>
    have hlower := hleft.capacity_le (r - 1) (by omega)
    omega

/-- No recursive schedule needs fewer evaluations, and one needs no more. -/
theorem IsOptimum.isLeast_plan (hl : 1 ≤ l) (h : IsOptimum l s t) : IsLeast {n | Plan l s n} t := by
  constructor
  · show Plan l s t
    induction l using Nat.strongRecOn generalizing s t with
    | ind l ih =>
      rcases Nat.lt_or_ge 1 l with hlong | hshort
      · obtain ⟨m, hlow, hhigh, a, b, ha, hb, rfl⟩ := (h.isLeast_split hlong).1
        obtain ⟨s, rfl⟩ := Nat.exists_eq_add_of_le' (h.slot hlong)
        have hplan := Plan.split (ih m hhigh hlow ha) (ih (l - m) (by omega) (by omega) hb)
        rwa [Nat.add_sub_cancel' hhigh.le] at hplan
      · obtain rfl : l = 1 := by omega
        rw [h.unique (isOptimum_one s)]
        exact .single s
  · intro n hn
    change Plan l s n at hn
    clear hl
    induction hn generalizing t with
    | single s => exact (h.unique (isOptimum_one s)).le
    | @split m k s a b left right ihleft ihright =>
      have hlength : ∀ {l s n : ℕ}, Plan l s n → l ≤ 1 ∨ 1 ≤ s := by
        intro l s n hplan
        cases hplan with
        | single => exact .inl le_rfl
        | split => exact .inr (Nat.le_add_left 1 _)
      obtain ⟨a', ha'⟩ := exists_isOptimum (hlength left)
      obtain ⟨b', hb'⟩ := exists_isOptimum (hlength right)
      calc
        t ≤ m + a' + b' := h.le_split ha' hb'
        _ ≤ m + a + b := by
          have hleft := ihleft ha'
          have hright := ihright hb'
          omega

end Recurrence

end FrankenSim.Revolve
