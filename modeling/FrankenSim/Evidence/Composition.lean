import FrankenSim.Evidence.Color
import FrankenSim.Library.Refusals

/-!
# Composition never launders a colour

However colours are composed, the result is well formed and no stronger than the weakest
part, a dispersion once charged stays charged, and a validated result holds only where
every anchor holds.
-/
namespace FrankenSim.Evidence

open Library Recompute Binary64

variable {Q : Type*} {lo hi : Binary64} {estimator dataset : String} {dispersion : Binary64}
  {regime : ValidityDomain Q} {color : Color Q}

/-- A colour whose payload passes its validation. -/
def WellFormed (color : Color Q) : Prop := validateColorPayload color = .ok ()

instance (color : Color Q) : Decidable (WellFormed color) := by
  unfold WellFormed
  cases h : validateColorPayload color with
  | ok _ => exact isTrue rfl
  | error e => exact isFalse (by rintro ⟨⟩)

section WellFormedness

theorem wellFormed_verified :
    WellFormed (.verified lo hi : Color Q) ↔
      lo.isNan = false ∧ hi.isNan = false ∧ lo.key ≤ hi.key ∧
        ¬(lo.isInfinite ∧ lo.bits = hi.bits) := by
  change validateVerified lo hi = .ok () ↔ _
  unfold validateVerified
  constructor
  · intro h
    split_ifs at h with hnan horder hpoint
    simp only [Bool.or_eq_true, not_or, Bool.not_eq_true] at hnan
    rw [Bool.not_eq_true, lt_eq_false hnan.2 hnan.1] at horder
    exact ⟨hnan.1, hnan.2, horder, by simpa using hpoint⟩
  · rintro ⟨hlo, hhi, horder, hpoint⟩
    rw [hlo, hhi, (lt_eq_false hhi hlo).2 horder]
    simpa using hpoint

theorem validateAxis_ok {name : String} :
    validateAxis (name, lo, hi) = .ok () ↔
      colorIdentityReason name = none ∧ lo.isFinite ∧ hi.isFinite ∧ lo.key ≤ hi.key := by
  unfold validateAxis
  constructor
  · intro h
    dsimp only at h
    split at h
    · cases h
    · rename_i hname
      split_ifs at h with hfinite horder
      simp only [Bool.or_eq_true, Bool.not_eq_true', not_or, Bool.not_eq_false] at hfinite
      rw [Bool.not_eq_true, lt_eq_false (isNan_of_isFinite hfinite.2)
        (isNan_of_isFinite hfinite.1)] at horder
      exact ⟨hname, hfinite.1, hfinite.2, horder⟩
  · rintro ⟨hname, hlo, hhi, horder⟩
    have hlt := (lt_eq_false (isNan_of_isFinite hhi) (isNan_of_isFinite hlo)).2 horder
    simp [hname, hlo, hhi, hlt]

theorem wellFormed_validated :
    WellFormed (.validated regime dataset) ↔
      (∀ axis, regime.axisQuantities.get? axis = none) ∧ colorIdentityReason dataset = none ∧
        regime.bounds.isEmpty = false ∧
        ∀ axis ∈ regime.bounds.entries, validateAxis axis = .ok () := by
  rw [← SortedMap.isEmpty_iff]
  change validateValidated regime dataset = .ok () ↔ _
  unfold validateValidated ValidityDomain.hasTypedAxes
  constructor
  · intro h
    cases hname : colorIdentityReason dataset with
    | some reason =>
      rw [hname] at h
      split_ifs at h
    | none =>
      rw [hname] at h
      split_ifs at h with htyped hempty
      exact ⟨by simpa using htyped, rfl, by simpa using hempty, forM_ok.1 h⟩
  · rintro ⟨htyped, hname, hempty, haxes⟩
    simp only [htyped, hname, hempty]
    exact forM_ok.2 haxes

theorem wellFormed_estimated :
    WellFormed (.estimated estimator dispersion : Color Q) ↔
      colorIdentityReason estimator = none ∧ dispersion.isNan = false ∧ 0 ≤ dispersion.key := by
  have hzero : zero.isNan = false ∧ zero.key = 0 := by decide
  change validateEstimated estimator dispersion = .ok () ↔ _
  unfold validateEstimated
  constructor
  · intro h
    split at h
    · cases h
    · rename_i hname
      split_ifs at h with hbad
      simp only [Bool.or_eq_true, not_or, Bool.not_eq_true] at hbad
      have hkey := (lt_eq_false hbad.1 hzero.1).1 hbad.2
      rw [hzero.2] at hkey
      exact ⟨hname, hbad.1, hkey⟩
  · rintro ⟨hname, hnan, hkey⟩
    have hlt := (lt_eq_false hnan hzero.1).2 (hzero.2 ▸ hkey)
    simp [hname, hnan, hlt]

end WellFormedness

section Intervals

theorem infinity_facts : infinity.isNan = false ∧ infinity.key = infinite ∧
    negInfinity.isNan = false ∧ negInfinity.key = -(infinite : ℤ) := by decide

theorem wellFormed_line : WellFormed (.verified negInfinity infinity : Color Q) :=
  wellFormed_verified.2 (by decide)

/-- Rounding an interval outward leaves an interval, and never a point at infinity. -/
theorem wellFormed_outwardRound (h : lo.isNan = false → hi.isNan = false → lo.key ≤ hi.key) :
    WellFormed (.verified (outwardRound lo hi).1 (outwardRound lo hi).2 : Color Q) := by
  unfold outwardRound
  split_ifs with hnan
  · exact wellFormed_line
  · simp only [Bool.or_eq_true, not_or, Bool.not_eq_true] at hnan
    have hkey := h hnan.1 hnan.2
    obtain ⟨hdown, hlow, htop⟩ := nextDown_spec hnan.1
    obtain ⟨hup, hhigh, hbottom⟩ := nextUp_spec hnan.2
    apply wellFormed_verified.2
    refine ⟨hdown, hup, hlow.trans (hkey.trans hhigh), ?_⟩
    rintro ⟨hinf, hbits⟩
    have heq : lo.nextDown = hi.nextUp := congrArg Binary64.mk hbits
    rw [isInfinite_iff, ← natAbs_key] at hinf
    rw [← heq] at hbottom
    dsimp only at hinf
    omega

theorem min_fold_spec {l : List Binary64} (hl : ∀ x ∈ l, x.isNan = false) {start : Binary64}
    (hstart : start.isNan = false) :
    (l.foldl Binary64.min start).isNan = false ∧
      (l.foldl Binary64.min start).key ≤ start.key ∧
      ∀ x ∈ l, (l.foldl Binary64.min start).key ≤ x.key := by
  induction l generalizing start with
  | nil => exact ⟨hstart, le_rfl, by simp⟩
  | cons x l ih =>
    obtain ⟨hchoice, hleft, hright⟩ := min_spec hstart (hl x List.mem_cons_self)
    have hnan : (Binary64.min start x).isNan = false := by
      rcases hchoice with h | h
      · rw [h]
        exact hstart
      · rw [h]
        exact hl x List.mem_cons_self
    obtain ⟨hfold, hbelow, hall⟩ := ih (fun y hy => hl y (List.mem_cons_of_mem _ hy)) hnan
    refine ⟨hfold, hbelow.trans hleft, ?_⟩
    intro y hy
    rcases List.mem_cons.1 hy with rfl | hmem
    · exact hbelow.trans hright
    · exact hall y hmem

theorem max_fold_spec {l : List Binary64} (hl : ∀ x ∈ l, x.isNan = false) {start : Binary64}
    (hstart : start.isNan = false) :
    (l.foldl Binary64.max start).isNan = false ∧
      start.key ≤ (l.foldl Binary64.max start).key ∧
      ∀ x ∈ l, x.key ≤ (l.foldl Binary64.max start).key := by
  induction l generalizing start with
  | nil => exact ⟨hstart, le_rfl, by simp⟩
  | cons x l ih =>
    obtain ⟨hchoice, hleft, hright⟩ := max_spec hstart (hl x List.mem_cons_self)
    have hnan : (Binary64.max start x).isNan = false := by
      rcases hchoice with h | h
      · rw [h]
        exact hstart
      · rw [h]
        exact hl x List.mem_cons_self
    obtain ⟨hfold, habove, hall⟩ := ih (fun y hy => hl y (List.mem_cons_of_mem _ hy)) hnan
    refine ⟨hfold, hleft.trans habove, ?_⟩
    intro y hy
    rcases List.mem_cons.1 hy with rfl | hmem
    · exact hright.trans habove
    · exact hall y hmem

theorem wellFormed_hull {a0 a1 b0 b1 : Binary64} (ha : WellFormed (.verified a0 a1 : Color Q))
    (hb : WellFormed (.verified b0 b1 : Color Q)) :
    WellFormed (.verified (Binary64.min a0 b0) (Binary64.max a1 b1) : Color Q) := by
  obtain ⟨ha0, ha1, hak, hap⟩ := wellFormed_verified.1 ha
  obtain ⟨hb0, hb1, hbk, hbp⟩ := wellFormed_verified.1 hb
  obtain ⟨hlow, hlowa, hlowb⟩ := min_spec ha0 hb0
  obtain ⟨hhigh, hhigha, hhighb⟩ := max_spec ha1 hb1
  have hlownan : (Binary64.min a0 b0).isNan = false := by
    rcases hlow with h | h <;> rw [h] <;> assumption
  have hhighnan : (Binary64.max a1 b1).isNan = false := by
    rcases hhigh with h | h <;> rw [h] <;> assumption
  apply wellFormed_verified.2
  refine ⟨hlownan, hhighnan, by omega, ?_⟩
  rintro ⟨hinf, hbits⟩
  -- one infinite pattern at both ends makes an operand that point
  have heq : Binary64.min a0 b0 = Binary64.max a1 b1 := congrArg Binary64.mk hbits
  rw [isInfinite_iff, ← natAbs_key] at hinf
  have hpos : 0 < infinite := by decide
  have hsame {x : Binary64} (hx : x.key = (Binary64.min a0 b0).key) : x = Binary64.min a0 b0 :=
    eq_of_key_eq (by omega) hx
  have hkeys : (Binary64.min a0 b0).key = (Binary64.max a1 b1).key := by rw [heq]
  have ha0' := hsame (x := a0) (by omega)
  have ha1' := hsame (x := a1) (by omega)
  apply hap
  rw [isInfinite_iff, ← natAbs_key, ha0', ha1']
  exact ⟨hinf, rfl⟩

theorem wellFormed_composeIntervals {a0 a1 b0 b1 : Binary64}
    (ha : WellFormed (.verified a0 a1 : Color Q)) (hb : WellFormed (.verified b0 b1 : Color Q))
    (op : IntervalOp) :
    WellFormed (.verified (composeIntervals a0 a1 b0 b1 op).1
      (composeIntervals a0 a1 b0 b1 op).2 : Color Q) := by
  obtain ⟨-, -, hak, -⟩ := wellFormed_verified.1 ha
  obtain ⟨-, -, hbk, -⟩ := wellFormed_verified.1 hb
  cases op with
  | add => exact wellFormed_outwardRound fun hlo hhi => key_add_mono hak hbk hlo hhi
  | mul =>
    unfold composeIntervals
    dsimp only
    split_ifs with hnan
    · exact wellFormed_line
    · apply wellFormed_outwardRound
      intro _ _
      have hcorners : ∀ x ∈ [mul a0 b0, mul a0 b1, mul a1 b0, mul a1 b1], x.isNan = false := by
        simpa [List.any_eq_true] using hnan
      have hlow := (min_fold_spec hcorners infinity_facts.1).2.2 _ List.mem_cons_self
      have hhigh := (max_fold_spec hcorners infinity_facts.2.2.1).2.2 _ List.mem_cons_self
      exact hlow.trans hhigh
  | hull => exact wellFormed_hull ha hb

/-- The width of an interval is a dispersion. -/
theorem intervalDispersion_nonneg (lo hi : Binary64) :
    (intervalDispersion lo hi).isNan = false ∧ 0 ≤ (intervalDispersion lo hi).key := by
  have hinfinity : infinity.isNan = false ∧ 0 ≤ infinity.key := by decide
  unfold intervalDispersion NumericalCertificate.relHalfWidth
  dsimp only
  generalize Binary64.add (lo.div two) (hi.div two) = reference
  split
  · exact hinfinity
  split
  · rename_i husable
    simp only [Bool.and_eq_true] at husable
    obtain ⟨⟨-, hhalf⟩, hfinite⟩ := husable
    have hnan := isNan_of_le hhalf
    have hzero : zero.key = 0 := by decide
    have hkey := (le_iff hnan.1 hnan.2).1 hhalf
    rw [hzero] at hkey
    refine ⟨isNan_of_isFinite hfinite, key_div_nonneg hkey ?_ hfinite⟩
    by_cases habs : reference.abs.isNan
    · have hmin : Binary64.max reference.abs minPositive = minPositive := by
        simp [Binary64.max, habs]
      rw [hmin]
      decide
    · have hmin : minPositive.isNan = false := by decide
      rcases (max_spec (Bool.not_eq_true _ ▸ habs) hmin).1 with h | h
      · rw [h]
        exact negative_abs reference
      · rw [h]
        decide
  · exact hinfinity

end Intervals

section Regimes

variable {r1 r2 : ValidityDomain Q} {state : SortedMap String Binary64}

/-- No axis of the regime has a type. -/
def Untyped (regime : ValidityDomain Q) : Prop := ∀ axis, regime.axisQuantities.get? axis = none

/-- The state lies in every interval of the regime. -/
def Anchored (regime : ValidityDomain Q) (state : SortedMap String Binary64) : Prop :=
  ∀ axis lo hi, regime.bounds.get? axis = some (lo, hi) →
    ∃ v, state.get? axis = some v ∧ v.isFinite ∧ lo.key ≤ v.key ∧ v.key ≤ hi.key

theorem axisDemotion_eq_none {name : String} (htyped : Untyped regime) :
    axisDemotion regime dataset state (name, lo, hi) = none ↔
      ∃ v, state.get? name = some v ∧ lo.isFinite ∧ hi.isFinite ∧ v.isFinite ∧
        lo.key ≤ hi.key ∧ lo.key ≤ v.key ∧ v.key ≤ hi.key := by
  have hcontains : regime.axisQuantities.contains name = false := by
    simp [SortedMap.contains, htyped name]
  simp only [axisDemotion, hcontains, Bool.false_eq_true, if_false]
  cases hv : state.get? name with
  | none => simp
  | some v =>
    simp only [Option.some.injEq, exists_eq_left']
    constructor
    · intro h
      split_ifs at h with hout
      · simp only [Bool.or_eq_true, Bool.not_eq_true', not_or, Bool.not_eq_false] at hout
        obtain ⟨⟨⟨⟨⟨hlo, hhi⟩, horder⟩, hfinite⟩, hlow⟩, hhigh⟩ := hout
        have hnlo := isNan_of_isFinite hlo
        have hnhi := isNan_of_isFinite hhi
        have hnv := isNan_of_isFinite hfinite
        rw [Bool.not_eq_true] at horder hlow hhigh
        exact ⟨hlo, hhi, hfinite, (lt_eq_false hnhi hnlo).1 horder, (lt_eq_false hnv hnlo).1 hlow,
          (lt_eq_false hnhi hnv).1 hhigh⟩
    · rintro ⟨hlo, hhi, hfinite, horder, hlow, hhigh⟩
      have hnlo := isNan_of_isFinite hlo
      have hnhi := isNan_of_isFinite hhi
      have hnv := isNan_of_isFinite hfinite
      simp [hlo, hhi, hfinite, (lt_eq_false hnhi hnlo).2 horder, (lt_eq_false hnv hnlo).2 hlow,
        (lt_eq_false hnhi hnv).2 hhigh]

/-- A well-formed validated colour stays in its regime exactly at the anchored states. -/
theorem regimeDemotion_eq_none (h : WellFormed (.validated regime dataset)) :
    regimeDemotion (.validated regime dataset) state = none ↔ Anchored regime state := by
  obtain ⟨htyped, -, hempty, haxes⟩ := wellFormed_validated.1 h
  unfold regimeDemotion
  dsimp only
  rw [hempty, if_neg Bool.false_ne_true, List.findSome?_eq_none_iff]
  constructor
  · intro hall axis lo hi hget
    obtain ⟨v, hv, -, -, hfinite, -, hlow, hhigh⟩ :=
      (axisDemotion_eq_none htyped).1 (hall _ (SortedMap.get?_eq_some.1 hget))
    exact ⟨v, hv, hfinite, hlow, hhigh⟩
  · rintro hanchored ⟨axis, lo, hi⟩ hmem
    obtain ⟨v, hv, hfinite, hlow, hhigh⟩ := hanchored axis lo hi (SortedMap.get?_eq_some.2 hmem)
    obtain ⟨-, hlo, hhi, horder⟩ := validateAxis_ok.1 (haxes _ hmem)
    exact (axisDemotion_eq_none htyped).2 ⟨v, hv, hlo, hhi, hfinite, horder, hlow, hhigh⟩

theorem bounds_finite (h : WellFormed (.validated regime dataset)) {axis : String}
    (hget : regime.bounds.get? axis = some (lo, hi)) :
    lo.isNan = false ∧ hi.isNan = false := by
  obtain ⟨-, -, -, haxes⟩ := wellFormed_validated.1 h
  obtain ⟨-, hlo, hhi, -⟩ := validateAxis_ok.1 (haxes _ (SortedMap.get?_eq_some.1 hget))
  exact ⟨isNan_of_isFinite hlo, isNan_of_isFinite hhi⟩

variable [QuantityOps Q]

theorem intersectAxis_untyped (h1 : Untyped r1) (h2 : Untyped r2) (out : ValidityDomain Q)
    (axis : String × (Binary64 × Binary64)) :
    ValidityDomain.intersectAxis r1 r2 out axis =
      ⟨out.bounds.insert axis.1
        (ValidityDomain.meetBounds axis.2.1 axis.2.2 (out.bounds.get? axis.1)),
        out.axisQuantities⟩ := by
  simp [ValidityDomain.intersectAxis, h1 axis.1, h2 axis.1]

theorem intersect_untyped (h1 : Untyped r1) (h2 : Untyped r2) :
    r1.intersect r2 =
      ⟨r2.bounds.entries.foldl (fun out axis => out.insert axis.1
        (ValidityDomain.meetBounds axis.2.1 axis.2.2 (out.get? axis.1))) r1.bounds,
        r1.axisQuantities⟩ := by
  have hfold (l : List (String × (Binary64 × Binary64))) (out : ValidityDomain Q) :
      l.foldl (ValidityDomain.intersectAxis r1 r2) out =
        ⟨l.foldl (fun out axis => out.insert axis.1
          (ValidityDomain.meetBounds axis.2.1 axis.2.2 (out.get? axis.1))) out.bounds,
          out.axisQuantities⟩ := by
    induction l generalizing out with
    | nil => rfl
    | cons axis l ih => rw [List.foldl_cons, intersectAxis_untyped h1 h2, ih, List.foldl_cons]
  exact hfold _ r1

/-- An axis of an intersection is bounded by both sides that name it. -/
theorem get?_intersect (h1 : Untyped r1) (h2 : Untyped r2) (axis : String) :
    (r1.intersect r2).bounds.get? axis =
      match r2.bounds.get? axis with
      | some b => some (ValidityDomain.meetBounds b.1 b.2 (r1.bounds.get? axis))
      | none => r1.bounds.get? axis := by
  rw [intersect_untyped h1 h2, SortedMap.get?_foldl
    (f := fun e o => ValidityDomain.meetBounds e.2.1 e.2.2 o) _ r2.bounds.nodup_keys]
  · unfold SortedMap.get?
    cases lookup Prod.fst axis r2.bounds.entries <;> rfl
  · intro m e j
    rw [SortedMap.get?_insert]
    split_ifs with hj
    · rw [hj]
    · rfl

theorem untyped_intersect (h1 : Untyped r1) (h2 : Untyped r2) : Untyped (r1.intersect r2) := by
  rw [intersect_untyped h1 h2]
  exact h1

theorem meetBounds_some {lo2 hi2 : Binary64} (h : lo.isNan = false ∧ hi.isNan = false)
    (h2 : lo2.isNan = false ∧ hi2.isNan = false) :
    ValidityDomain.meetBounds lo2 hi2 (some (lo, hi)) =
      (Binary64.max lo lo2, Binary64.min hi hi2) := by
  simp [ValidityDomain.meetBounds, h, h2]

/-- Where an intersection holds, both of its sides hold. -/
theorem anchored_of_intersect {d1 d2 : String} (h1 : WellFormed (.validated r1 d1))
    (h2 : WellFormed (.validated r2 d2)) (h : Anchored (r1.intersect r2) state) :
    Anchored r1 state ∧ Anchored r2 state := by
  have hget := get?_intersect (wellFormed_validated.1 h1).1 (wellFormed_validated.1 h2).1
  constructor
  · intro axis lo hi hr1
    have hnan1 := bounds_finite h1 hr1
    cases hr2 : r2.bounds.get? axis with
    | none => exact h axis lo hi (by rw [hget, hr2, hr1])
    | some b =>
      have hnan2 := bounds_finite h2 hr2
      have hmeet := hget axis
      simp only [hr2, hr1, meetBounds_some hnan1 hnan2] at hmeet
      obtain ⟨v, hv, hfinite, hlow, hhigh⟩ := h axis _ _ hmeet
      have hmax := (max_spec hnan1.1 hnan2.1).2.1
      have hmin := (min_spec hnan1.2 hnan2.2).2.1
      exact ⟨v, hv, hfinite, hmax.trans hlow, hhigh.trans hmin⟩
  · intro axis lo hi hr2
    have hnan2 := bounds_finite h2 hr2
    have hmeet := hget axis
    cases hr1 : r1.bounds.get? axis with
    | none =>
      simp only [hr2, hr1, ValidityDomain.meetBounds] at hmeet
      exact h axis lo hi hmeet
    | some b =>
      have hnan1 := bounds_finite h1 hr1
      simp only [hr2, hr1, meetBounds_some hnan1 hnan2] at hmeet
      obtain ⟨v, hv, hfinite, hlow, hhigh⟩ := h axis _ _ hmeet
      have hmax := (max_spec hnan1.1 hnan2.1).2.2
      have hmin := (min_spec hnan1.2 hnan2.2).2.2
      exact ⟨v, hv, hfinite, hmax.trans hlow, hhigh.trans hmin⟩

/-- An intersection that is not empty is a regime. -/
theorem wellFormed_intersect {d1 d2 : String} (h1 : WellFormed (.validated r1 d1))
    (h2 : WellFormed (.validated r2 d2)) (hname : colorIdentityReason dataset = none)
    (hempty : (r1.intersect r2).isEmpty = false) :
    WellFormed (.validated (r1.intersect r2) dataset) := by
  obtain ⟨ht1, -, hne1, haxes1⟩ := wellFormed_validated.1 h1
  obtain ⟨ht2, -, -, haxes2⟩ := wellFormed_validated.1 h2
  have hget := get?_intersect ht1 ht2
  apply wellFormed_validated.2
  refine ⟨untyped_intersect ht1 ht2, hname, ?_, ?_⟩
  · rw [Bool.eq_false_iff, ne_eq, SortedMap.isEmpty_iff] at hne1 ⊢
    intro hall
    apply hne1
    intro axis
    have haxis := hget axis
    rw [hall axis] at haxis
    cases hr2 : r2.bounds.get? axis with
    | none => simpa [hr2] using haxis.symm
    | some b => simp [hr2] at haxis
  · rintro ⟨axis, lo, hi⟩ hmem
    -- the name is a name of one side, the interval passed the test of emptiness
    have haxis := hget axis
    rw [SortedMap.get?_eq_some.2 hmem] at haxis
    have hnames : colorIdentityReason axis = none := by
      cases hr2 : r2.bounds.get? axis with
      | some b => exact (validateAxis_ok.1 (haxes2 _ (SortedMap.get?_eq_some.1 hr2))).1
      | none =>
        rw [hr2] at haxis
        exact (validateAxis_ok.1 (haxes1 _ (SortedMap.get?_eq_some.1 haxis.symm))).1
    have husable := List.any_eq_false.1 hempty _ hmem
    simp only [Bool.or_eq_true, Bool.not_eq_true', not_or, Bool.not_eq_false] at husable
    obtain ⟨⟨⟨hlo, hhi⟩, horder⟩, -⟩ := husable
    rw [Bool.not_eq_true, lt_eq_false (isNan_of_isFinite hhi) (isNan_of_isFinite hlo)] at horder
    exact validateAxis_ok.2 ⟨hnames, hlo, hhi, horder⟩

end Regimes

section Strength

/-- A colour claims no more than another one: no higher rank, no smaller dispersion, and a
regime inside the other regime. -/
structure Weaker (color other : Color Q) : Prop where
  rank : color.rank ≤ other.rank
  spread : ∀ e d e' d', color = .estimated e d → other = .estimated e' d' → d'.key ≤ d.key
  anchors : ∀ r d r' d', color = .validated r d → other = .validated r' d' →
    ∀ state, Anchored r state → Anchored r' state

theorem rank_le_estimated (h : color.rank ≤ .estimated) : ∃ e d, color = .estimated e d := by
  cases color with
  | verified lo hi => exact absurd h (by decide : ¬ColorRank.verified ≤ .estimated)
  | validated regime dataset => exact absurd h (by decide : ¬ColorRank.validated ≤ .estimated)
  | estimated e d => exact ⟨e, d, rfl⟩

theorem Weaker.refl (color : Color Q) : Weaker color color where
  rank := le_rfl
  spread := by
    rintro e d e' d' rfl heq
    cases heq
    exact le_rfl
  anchors := by
    rintro r d r' d' rfl heq
    cases heq
    exact fun _ h => h

theorem Weaker.trans {a b c : Color Q} (hab : Weaker a b) (hbc : Weaker b c) : Weaker a c where
  rank := hab.rank.trans hbc.rank
  spread := by
    rintro e d e' d' rfl rfl
    obtain ⟨em, dm, rfl⟩ := rank_le_estimated hbc.rank
    exact (hbc.spread _ _ _ _ rfl rfl).trans (hab.spread _ _ _ _ rfl rfl)
  anchors := by
    rintro r d r' d' rfl rfl state h
    cases b with
    | verified lo hi => exact absurd hbc.rank (by decide : ¬ColorRank.verified ≤ .validated)
    | estimated e d => exact absurd hab.rank (by decide : ¬ColorRank.validated ≤ .estimated)
    | validated rm dm =>
      exact hbc.anchors _ _ _ _ rfl rfl state (hab.anchors _ _ _ _ rfl rfl state h)

theorem estimated_le (rank : ColorRank) : .estimated ≤ rank := by
  cases rank <;> decide

theorem le_verified (rank : ColorRank) : rank ≤ .verified := by
  cases rank <;> decide

/-- An estimate is weaker than every colour whose dispersion it covers. -/
theorem weaker_estimated
    (h : ∀ e' d', color = .estimated e' d' → d'.key ≤ dispersion.key) :
    Weaker (.estimated estimator dispersion) color where
  rank := estimated_le color.rank
  spread := by
    rintro e d e' d' heq rfl
    cases heq
    exact h e' d' rfl
  anchors := by
    rintro r d r' d' heq
    cases heq

theorem weaker_verified (color : Color Q) : Weaker color (.verified lo hi) where
  rank := le_verified color.rank
  spread := by
    rintro e d e' d' - heq
    cases heq
  anchors := by
    rintro r d r' d' - heq
    cases heq

theorem weaker_validated {r r' : ValidityDomain Q} {d d' : String}
    (h : ∀ state, Anchored r state → Anchored r' state) :
    Weaker (.validated r d) (.validated r' d') where
  rank := le_rfl
  spread := by
    rintro e d e' d' heq
    cases heq
  anchors := by
    rintro r d r' d' heq heq'
    cases heq
    cases heq'
    exact h

theorem key_le_of_wellFormed {e : String} {d : Binary64}
    (h : WellFormed (.estimated e d : Color Q)) : d.key ≤ infinity.key := by
  rw [infinity_facts.2.1]
  exact (key_bounds (wellFormed_estimated.1 h).2.1).2

theorem weaker_infinite (h : WellFormed color) : Weaker (.estimated estimator infinity) color := by
  apply weaker_estimated
  rintro e' d' rfl
  exact key_le_of_wellFormed h

theorem infinite_of_weaker {a b : Color Q} (ha : WellFormed a) (h : Weaker a b) {e : String}
    (hb : b = .estimated e infinity) : ∃ e', a = .estimated e' infinity := by
  subst hb
  obtain ⟨e', d, rfl⟩ := rank_le_estimated h.rank
  have hkey := le_antisymm (key_le_of_wellFormed ha) (h.spread _ _ _ _ rfl rfl)
  have hne : d.key ≠ 0 := by
    rw [hkey]
    decide
  exact ⟨e', congrArg _ (eq_of_key_eq hne hkey)⟩

end Strength

section Step

variable [HashDomain] {a b : Color Q} {op : IntervalOp}

/-- A well-formed operand of an estimate: its dispersion is charged, and derives a name. -/
theorem composeEstimated_spec (ha : WellFormed (.estimated estimator dispersion : Color Q))
    (hb : WellFormed b) :
    WellFormed (composeEstimated estimator dispersion b) ∧
      Weaker (composeEstimated estimator dispersion b) (.estimated estimator dispersion) ∧
      Weaker (composeEstimated estimator dispersion b) b := by
  obtain ⟨-, hnan, hkey⟩ := wellFormed_estimated.1 ha
  have hcharge {identity : String} {width : Binary64} (hname : colorIdentityReason identity = none)
      (hwidth : width.isNan = false) (hwkey : 0 ≤ width.key) :
      WellFormed (.estimated identity (Binary64.add dispersion width) : Color Q) ∧
        Weaker (.estimated identity (Binary64.add dispersion width) : Color Q)
          (.estimated estimator dispersion) ∧
        width.key ≤ (Binary64.add dispersion width).key := by
    obtain ⟨hleft, hright⟩ := le_key_add hnan hwidth hkey hwkey
    have hsum := isNan_add_of_nonneg hnan hwidth hkey hwkey
    refine ⟨wellFormed_estimated.2 ⟨hname, hsum, hkey.trans hleft⟩, ?_, hright⟩
    apply weaker_estimated
    rintro e' d' heq
    cases heq
    exact hleft
  cases b with
  | verified lo hi =>
    obtain ⟨hwidth, hwkey⟩ := intervalDispersion_nonneg lo hi
    obtain ⟨hwell, hweaker, -⟩ :=
      hcharge (verifiedEstimatorIdentity_usable estimator) hwidth hwkey
    exact ⟨hwell, hweaker, weaker_estimated (by rintro e' d' heq; cases heq)⟩
  | validated regime dataset =>
    obtain ⟨hwell, hweaker, -⟩ :=
      hcharge (validatedEstimatorIdentity_usable estimator dataset) infinity_facts.1 (by decide)
    exact ⟨hwell, hweaker, weaker_estimated (by rintro e' d' heq; cases heq)⟩
  | estimated e2 v =>
    obtain ⟨-, hwidth, hwkey⟩ := wellFormed_estimated.1 hb
    obtain ⟨hwell, hweaker, hcovers⟩ :=
      hcharge (composedEstimatorIdentity_usable estimator e2) hwidth hwkey
    refine ⟨hwell, hweaker, weaker_estimated ?_⟩
    rintro e' d' heq
    cases heq
    exact hcovers

variable [QuantityOps Q]

/-- Composition of two well-formed colours is well formed and no stronger than either. -/
theorem composeNormalized_spec (ha : WellFormed a) (hb : WellFormed b) (op : IntervalOp) :
    WellFormed (composeNormalized a b op) ∧ Weaker (composeNormalized a b op) a ∧
      Weaker (composeNormalized a b op) b := by
  -- a validated operand keeps its regime beside a verified one
  have hkept {regime : ValidityDomain Q} {dataset : String}
      (h : WellFormed (.validated regime dataset)) :
      WellFormed (.validated regime (verifiedDatasetIdentity dataset)) ∧
        Weaker (.validated regime (verifiedDatasetIdentity dataset))
          (.validated regime dataset) := by
    obtain ⟨htyped, -, hrest⟩ := wellFormed_validated.1 h
    constructor
    · exact wellFormed_validated.2 ⟨htyped, verifiedDatasetIdentity_usable dataset, hrest⟩
    · exact weaker_validated fun _ h => h
  cases a with
  | estimated estimator dispersion => exact composeEstimated_spec ha hb
  | verified a0 a1 =>
    cases b with
    | verified b0 b1 =>
      exact ⟨wellFormed_composeIntervals ha hb op, weaker_verified _, weaker_verified _⟩
    | validated regime dataset =>
      obtain ⟨hwell, hweaker⟩ := hkept hb
      exact ⟨hwell, weaker_verified _, hweaker⟩
    | estimated estimator dispersion =>
      obtain ⟨hwell, hleft, hright⟩ := composeEstimated_spec hb ha
      exact ⟨hwell, hright, hleft⟩
  | validated r1 d1 =>
    cases b with
    | verified b0 b1 =>
      obtain ⟨hwell, hweaker⟩ := hkept ha
      exact ⟨hwell, hweaker, weaker_verified _⟩
    | validated r2 d2 =>
      unfold composeNormalized intersectDomains
      dsimp only
      split_ifs with hempty
      · exact ⟨wellFormed_estimated.2 ⟨disjointRegimeIdentity_usable d1 d2, by decide, by decide⟩,
          weaker_infinite ha, weaker_infinite hb⟩
      · rw [Bool.not_eq_true] at hempty
        refine ⟨wellFormed_intersect ha hb (composedDatasetIdentity_usable d1 d2) hempty, ?_, ?_⟩
        · exact weaker_validated fun _ h => (anchored_of_intersect ha hb h).1
        · exact weaker_validated fun _ h => (anchored_of_intersect ha hb h).2
    | estimated estimator dispersion =>
      obtain ⟨hwell, hleft, hright⟩ := composeEstimated_spec hb ha
      exact ⟨hwell, hright, hleft⟩

/-- An estimate beside a validated colour has no finite spread left to claim. -/
theorem composeNormalized_met (ha : WellFormed a) (hb : WellFormed b)
    (h : a.rank = .estimated ∧ b.rank = .validated ∨ a.rank = .validated ∧ b.rank = .estimated)
    (op : IntervalOp) : ∃ e, composeNormalized a b op = .estimated e infinity := by
  have hcharged {e dataset : String} {d : Binary64} (regime : ValidityDomain Q)
      (he : WellFormed (.estimated e d : Color Q)) :
      ∃ e', composeEstimated e d (.validated regime dataset) = .estimated e' infinity := by
    obtain ⟨-, hnan, hkey⟩ := wellFormed_estimated.1 he
    have hsum : Binary64.add d infinity = infinity := by
      have hnot := isNan_add_of_nonneg hnan infinity_facts.1 hkey (by decide)
      have htop := key_add_of_infinite_right (by decide : infinity.isInfinite) hnot
      exact (eq_of_key_eq (by decide) htop.symm).symm
    exact ⟨_, by rw [composeEstimated, hsum]⟩
  cases a with
  | verified a0 a1 => rcases h with ⟨h, -⟩ | ⟨h, -⟩ <;> cases h
  | estimated e d =>
    cases b with
    | verified b0 b1 => rcases h with ⟨-, h⟩ | ⟨-, h⟩ <;> cases h
    | validated regime dataset => exact hcharged regime ha
    | estimated e' d' => rcases h with ⟨-, h⟩ | ⟨h, -⟩ <;> cases h
  | validated regime dataset =>
    cases b with
    | verified b0 b1 => rcases h with ⟨-, h⟩ | ⟨-, h⟩ <;> cases h
    | validated r' d' => rcases h with ⟨h, -⟩ | ⟨-, h⟩ <;> cases h
    | estimated e d => exact hcharged regime hb

variable [HashBytes]

/-- Normalisation keeps well-formed colours and turns the others into infinite estimates. -/
theorem normalize_of_wellFormed (h : WellFormed color) :
    normalizeCompositionInput color = color := by
  unfold normalizeCompositionInput
  rw [show validateColorPayload color = .ok () from h]

theorem normalize_of_malformed (h : ¬WellFormed color) :
    ∃ e, normalizeCompositionInput color = .estimated e infinity ∧
      colorIdentityReason e = none := by
  unfold WellFormed at h
  unfold normalizeCompositionInput
  cases herror : validateColorPayload color with
  | ok _ => exact absurd herror h
  | error error =>
    have hlabel : error.label ∈ ["invalid-color-identity", "invalid-verified-interval",
        "invalid-validity-regime", "invalid-estimated-dispersion"] := by
      cases error <;> simp [ColorPayloadError.label]
    have hlabels : ∀ label ∈ ["invalid-color-identity", "invalid-verified-interval",
        "invalid-validity-regime", "invalid-estimated-dispersion"],
        IdentityText label ∧ label.utf8ByteSize ≤ 128 := by decide
    obtain ⟨htext, hshort⟩ := hlabels _ hlabel
    exact ⟨_, rfl, colorIdentityReason_digest htext hshort _⟩

theorem wellFormed_normalize (color : Color Q) : WellFormed (normalizeCompositionInput color) := by
  by_cases h : WellFormed color
  · rw [normalize_of_wellFormed h]
    exact h
  · obtain ⟨e, heq, hname⟩ := normalize_of_malformed h
    rw [heq]
    exact wellFormed_estimated.2 ⟨hname, by decide, by decide⟩

end Step

section Trees

variable [HashBytes] [HashDomain] [QuantityOps Q]

/-- A tree of compositions over colours. -/
inductive CompositionTree (Q : Type*)
  | leaf (color : Color Q)
  | node (op : IntervalOp) (left right : CompositionTree Q)

namespace CompositionTree

def leaves : CompositionTree Q → List (Color Q)
  | leaf color => [color]
  | node _ left right => left.leaves ++ right.leaves

/-- The colour that the compositions of a tree arrive at. -/
def value : CompositionTree Q → Color Q
  | leaf color => color
  | node op left right => compose left.value right.value op

/-- Somewhere an estimated and a validated part are composed. -/
def Met : CompositionTree Q → Prop
  | leaf _ => False
  | node _ left right => left.Met ∨ right.Met ∨
      (normalizeCompositionInput left.value).rank = .estimated ∧
        (normalizeCompositionInput right.value).rank = .validated ∨
      (normalizeCompositionInput left.value).rank = .validated ∧
        (normalizeCompositionInput right.value).rank = .estimated

theorem node_spec (op : IntervalOp) (left right : CompositionTree Q) :
    WellFormed (node op left right).value ∧
      Weaker (node op left right).value (normalizeCompositionInput left.value) ∧
      Weaker (node op left right).value (normalizeCompositionInput right.value) :=
  composeNormalized_spec (wellFormed_normalize _) (wellFormed_normalize _) op

/-- What a tree arrives at is weaker than each of its normalised leaves. -/
theorem weaker_leaf (t : CompositionTree Q) {color : Color Q} (h : color ∈ t.leaves) :
    Weaker (normalizeCompositionInput t.value) (normalizeCompositionInput color) := by
  induction t with
  | leaf c =>
    rw [List.mem_singleton.1 h]
    exact Weaker.refl _
  | node op left right ihleft ihright =>
    obtain ⟨hwell, hleft, hright⟩ := node_spec op left right
    rw [normalize_of_wellFormed hwell]
    rcases List.mem_append.1 h with hmem | hmem
    · exact hleft.trans (ihleft hmem)
    · exact hright.trans (ihright hmem)

/-- Where an estimated and a validated part met, no finite spread is left. -/
theorem infinite_of_met (t : CompositionTree Q) (h : t.Met) :
    ∃ e, normalizeCompositionInput t.value = .estimated e infinity := by
  induction t with
  | leaf c => exact absurd h id
  | node op left right ihleft ihright =>
    obtain ⟨hwell, hleft, hright⟩ := node_spec op left right
    rw [normalize_of_wellFormed hwell]
    rcases h with hmet | hmet | hmet
    · obtain ⟨e, he⟩ := ihleft hmet
      exact infinite_of_weaker hwell hleft he
    · obtain ⟨e, he⟩ := ihright hmet
      exact infinite_of_weaker hwell hright he
    · exact composeNormalized_met (wellFormed_normalize _) (wellFormed_normalize _) hmet op

end CompositionTree

/-- The rank that a leaf brings: a malformed one counts as estimated. -/
def effectiveRank (color : Color Q) : ColorRank :=
  if WellFormed color then color.rank else .estimated

theorem rank_normalize (color : Color Q) :
    (normalizeCompositionInput color).rank = effectiveRank color := by
  unfold effectiveRank
  split_ifs with h
  · rw [normalize_of_wellFormed h]
  · obtain ⟨e, heq, -⟩ := normalize_of_malformed h
    rw [heq]
    rfl

/-- No tree of compositions launders a colour. -/
theorem composition_never_launders (op : IntervalOp) (left right : CompositionTree Q) :
    let tree := CompositionTree.node op left right
    validateColorPayload tree.value = .ok () ∧
      (∀ color ∈ tree.leaves, tree.value.rank ≤ effectiveRank color) ∧
      (∀ estimator dispersion, tree.value = .estimated estimator dispersion →
        (∀ color ∈ tree.leaves, WellFormed color → ∀ e d, color = .estimated e d →
          Binary64.le d dispersion) ∧
        ((∃ color ∈ tree.leaves, ¬WellFormed color) ∨ tree.Met → dispersion = infinity)) ∧
      (∀ regime dataset, tree.value = .validated regime dataset →
        ∀ state, regimeDemotion tree.value state = none →
          ∀ color ∈ tree.leaves, color.rank = .validated → regimeDemotion color state = none) := by
  intro tree
  obtain ⟨hwell, -, -⟩ := CompositionTree.node_spec op left right
  have hnormal : normalizeCompositionInput tree.value = tree.value := normalize_of_wellFormed hwell
  have hweaker {color : Color Q} (hmem : color ∈ tree.leaves) :
      Weaker tree.value (normalizeCompositionInput color) := by
    rw [← hnormal]
    exact tree.weaker_leaf hmem
  refine ⟨hwell, ?_, ?_, ?_⟩
  · intro color hmem
    rw [← rank_normalize]
    exact (hweaker hmem).rank
  · intro estimator dispersion hvalue
    have hvaluewell : WellFormed (.estimated estimator dispersion : Color Q) := hvalue ▸ hwell
    constructor
    · rintro color hmem hcolor e d rfl
      have hle := (hweaker hmem).spread _ _ _ _ hvalue (normalize_of_wellFormed hcolor)
      exact (le_iff (wellFormed_estimated.1 hcolor).2.1
        (wellFormed_estimated.1 hvaluewell).2.1).2 hle
    · rintro (⟨color, hmem, hcolor⟩ | hmet)
      · obtain ⟨e, he, -⟩ := normalize_of_malformed hcolor
        obtain ⟨e', he'⟩ := infinite_of_weaker hwell (hweaker hmem) he
        rw [hvalue] at he'
        cases he'
        rfl
      · obtain ⟨e, he⟩ := tree.infinite_of_met hmet
        rw [hnormal, hvalue] at he
        cases he
        rfl
  · intro regime dataset hvalue state hdemotion color hmem hrank
    have hvaluewell : WellFormed (.validated regime dataset) := hvalue ▸ hwell
    rw [hvalue, regimeDemotion_eq_none hvaluewell] at hdemotion
    have hleaf := hweaker hmem
    -- a validated result leaves no malformed leaf
    have hcolor : WellFormed color := by
      by_contra hmalformed
      obtain ⟨e, he, -⟩ := normalize_of_malformed hmalformed
      rw [he, hvalue] at hleaf
      exact absurd hleaf.rank (by decide : ¬ColorRank.validated ≤ .estimated)
    rw [normalize_of_wellFormed hcolor] at hleaf
    cases color with
    | verified lo hi => cases hrank
    | estimated e d => cases hrank
    | validated r d =>
      rw [regimeDemotion_eq_none hcolor]
      exact hleaf.anchors _ _ _ _ hvalue rfl state hdemotion

end Trees

end FrankenSim.Evidence
