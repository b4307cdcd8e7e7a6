import FrankenSim.CertKernel.Directed

/-!
# Directed results enclose the exact ones

A float is at most or at least an exact rational; the infinities are beyond all of them. A
result of the hardware that is a neighbour of the exact one is rounded outwards to both sides.
-/
namespace FrankenSim.CertKernel

open Library

/-- Not above the rational. -/
structure AtMost (x : Binary64) (r : ℚ) : Prop where
  isNan : x.isNan = false
  le : x.isFinite → toRat x ≤ r
  key_lt : x.key < Binary64.infinite

/-- Not below the rational. -/
structure AtLeast (x : Binary64) (r : ℚ) : Prop where
  isNan : x.isNan = false
  ge : x.isFinite → r ≤ toRat x
  lt_key : -(Binary64.infinite : ℤ) < x.key

/-- The greatest float that is at most the rational, or the least that is at least. -/
def Neighbour (x : Binary64) (r : ℚ) : Prop :=
  AtMost x r ∧ (∀ y, AtMost y r → y.key ≤ x.key) ∨
    AtLeast x r ∧ ∀ y, AtLeast y r → x.key ≤ y.key

/-- Bounds on both sides, which meet only at the rational itself. -/
structure Encloses (pair : BoundPair) (r : ℚ) : Prop where
  lo : AtMost pair.lo r
  hi : AtLeast pair.hi r
  exact_of_eq : pair.lo.key = pair.hi.key → pair.lo.isFinite ∧ toRat pair.lo = r

section Around

variable {x : Binary64} {r : ℚ}

theorem AtMost.of_le (hx : x.isFinite) (h : toRat x ≤ r) : AtMost x r :=
  ⟨Binary64.isNan_of_isFinite hx, fun _ => h, (Binary64.key_bounds_of_isFinite hx).2⟩

theorem AtLeast.of_ge (hx : x.isFinite) (h : r ≤ toRat x) : AtLeast x r :=
  ⟨Binary64.isNan_of_isFinite hx, fun _ => h, (Binary64.key_bounds_of_isFinite hx).1⟩

/-- The lower of two consecutive floats is a neighbour of what lies between them. -/
theorem neighbour_of_between {y : Binary64} (hx : x.isFinite) (hkey : y.key = x.key + 1)
    (hle : toRat x ≤ r) (hlt : r < toRat y) : Neighbour x r := by
  refine .inl ⟨AtMost.of_le hx hle, fun z hz => ?_⟩
  by_contra habove
  have hbounds := Binary64.key_bounds_of_isFinite hx
  have hfinite := Binary64.isFinite_of_key (x := z) (by omega) hz.key_lt
  have hover : toRat y ≤ toRat z := toRat_le_of_key (by omega)
  exact absurd (hz.le hfinite) (hlt.trans_le hover).not_ge

/-- The float after a neighbour below is not below. -/
theorem atLeast_nextUp (hx : x.isFinite) (hn : Neighbour x r) (hlt : toRat x < r) :
    AtLeast (nextUp x) r := by
  obtain ⟨hnan, hkey⟩ := key_nextUp hx
  have hbounds := Binary64.key_bounds_of_isFinite hx
  refine ⟨hnan, fun hfinite => ?_, by omega⟩
  by_contra hbelow
  obtain ⟨_, hgreatest⟩ | ⟨hge, _⟩ := hn
  · have := hgreatest _ (AtMost.of_le hfinite (not_le.1 hbelow).le)
    omega
  · exact absurd (hge.ge hx) hlt.not_ge

theorem atMost_nextDown (hx : x.isFinite) (hn : Neighbour x r) (hgt : r < toRat x) :
    AtMost (nextDown x) r := by
  obtain ⟨hnan, hkey⟩ := key_nextDown hx
  have hbounds := Binary64.key_bounds_of_isFinite hx
  refine ⟨hnan, fun hfinite => ?_, by omega⟩
  by_contra habove
  obtain ⟨hle, _⟩ | ⟨_, hleast⟩ := hn
  · exact absurd (hle.le hx) hgt.not_ge
  · have := hleast _ (AtLeast.of_ge hfinite (not_le.1 habove).le)
    omega

/-- A finite neighbour and the float on the other side enclose the exact result. -/
theorem around_encloses (hx : x.isFinite) (hn : Neighbour x r) :
    Encloses (.around x (compare (toRat x) r)) r := by
  rcases lt_trichotomy (toRat x) r with hlt | heq | hgt
  · rw [compare_lt_iff_lt.2 hlt]
    refine ⟨AtMost.of_le hx hlt.le, atLeast_nextUp hx hn hlt, fun hkey => ?_⟩
    have hnext := (key_nextUp hx).2
    simp only [BoundPair.around] at hkey
    omega
  · rw [compare_eq_iff_eq.2 heq]
    exact ⟨AtMost.of_le hx heq.le, AtLeast.of_ge hx heq.ge, fun _ => ⟨hx, heq⟩⟩
  · rw [compare_gt_iff_gt.2 hgt]
    refine ⟨atMost_nextDown hx hn hgt, AtLeast.of_ge hx hgt.le, fun hkey => ?_⟩
    have hnext := (key_nextDown hx).2
    simp only [BoundPair.around] at hkey
    omega

theorem toRat_eq_zero (hx : x.magnitude = 0) : toRat x = 0 := by
  have hvalue : x.value = 0 := by
    unfold Binary64.value
    simp [hx, Binary64.units_zero]
  simp [toRat, hvalue]

theorem key_eq_zero (hx : x.magnitude = 0) : x.key = 0 := by
  unfold Binary64.key
  simp [hx]

/-- A result that underflows lies between zero and the smallest subnormal. -/
theorem underflow_encloses (hx : x.magnitude = 0) (hn : Neighbour x r) (hr : r ≠ 0) :
    Encloses (underflowPair (decide (r < 0))) r := by
  have hfinite : x.isFinite := by
    rw [Binary64.isFinite_iff, hx]
    decide
  have hzero := toRat_eq_zero hx
  have hkey := key_eq_zero hx
  have hupFinite : (⟨1⟩ : Binary64).isFinite := by decide
  have hdownFinite : (Binary64.neg ⟨1⟩).isFinite := by decide
  have hupKey : (⟨1⟩ : Binary64).key = 1 := by decide
  have hdownKey : (Binary64.neg ⟨1⟩).key = -1 := by decide
  rcases lt_or_gt_of_ne hr with hneg | hpos
  · rw [decide_eq_true hneg]
    have hdown : AtMost (Binary64.neg ⟨1⟩) r := by
      apply AtMost.of_le hdownFinite
      by_contra habove
      obtain ⟨hle, _⟩ | ⟨_, hleast⟩ := hn
      · exact absurd (hle.le hfinite) (by rw [hzero]; exact hneg.not_ge)
      · have := hleast _ (AtLeast.of_ge hdownFinite (not_le.1 habove).le)
        omega
    have hnegZero : toRat Binary64.zero.neg = 0 := toRat_eq_zero (by decide)
    refine ⟨hdown, AtLeast.of_ge (by decide) (hneg.le.trans hnegZero.ge), fun hmeet => ?_⟩
    exact absurd hmeet (by decide)
  · rw [decide_eq_false hpos.not_gt]
    have hup : AtLeast ⟨1⟩ r := by
      apply AtLeast.of_ge hupFinite
      by_contra hbelow
      obtain ⟨_, hgreatest⟩ | ⟨hge, _⟩ := hn
      · have := hgreatest _ (AtMost.of_le hupFinite (not_le.1 hbelow).le)
        omega
      · exact absurd (hge.ge hfinite) (by rw [hzero]; exact hpos.not_ge)
    have hposZero : toRat Binary64.zero = 0 := toRat_eq_zero (by decide)
    refine ⟨AtMost.of_le (by decide) (hposZero.le.trans hpos.le), hup, fun hmeet => ?_⟩
    exact absurd hmeet (by decide)

/-- A result that overflows lies beyond the largest float. -/
theorem overflow_encloses (hx : x.isFinite = false) (hn : Neighbour x r) :
    ∃ pair, nonfiniteResult x true = some pair ∧ Encloses pair r := by
  have hmaxFinite : MAX.isFinite := by decide
  have hminFinite : MAX.neg.isFinite := by decide
  have hmaxKey : MAX.key = Binary64.infinite - 1 := by decide
  have hminKey : MAX.neg.key = 1 - Binary64.infinite := by decide
  have hinfKey : Binary64.infinity.key = Binary64.infinite := by decide
  have hnegInfKey : Binary64.negInfinity.key = -(Binary64.infinite : ℤ) := by decide
  have hpositive : (0 : ℤ) < Binary64.infinite := by decide
  have hends : ¬ (-(Binary64.infinite : ℤ) < x.key ∧ x.key < Binary64.infinite) := by
    rintro ⟨hlow, hhigh⟩
    rw [Binary64.isFinite_of_key hlow hhigh] at hx
    cases hx
  obtain ⟨hle, hgreatest⟩ | ⟨hge, hleast⟩ := hn
  · have hkey : x.key = Binary64.negInfinity.key := by
      have hbounds := Binary64.key_bounds hle.isNan
      have hlt := hle.key_lt
      omega
    obtain rfl := Binary64.eq_of_key_eq (by omega) hkey
    have hmin : AtLeast MAX.neg r := by
      apply AtLeast.of_ge hminFinite
      by_contra hbelow
      have := hgreatest _ (AtMost.of_le hminFinite (not_le.1 hbelow).le)
      omega
    refine ⟨⟨Binary64.negInfinity, MAX.neg⟩, by decide, hle, hmin, fun hmeet => ?_⟩
    simp only at hmeet
    omega
  · have hkey : x.key = Binary64.infinity.key := by
      have hbounds := Binary64.key_bounds hge.isNan
      have hlt := hge.lt_key
      omega
    obtain rfl := Binary64.eq_of_key_eq (by omega) hkey
    have hmax : AtMost MAX r := by
      apply AtMost.of_le hmaxFinite
      by_contra habove
      have := hleast _ (AtLeast.of_ge hmaxFinite (not_le.1 habove).le)
      omega
    refine ⟨⟨MAX, Binary64.infinity⟩, by decide, hmax, hge, fun hmeet => ?_⟩
    simp only at hmeet
    omega

end Around

section Signs

variable {x y : Binary64}

theorem toRat_neg_iff (hx : x.magnitude ≠ 0) : toRat x < 0 ↔ x.negative = true := by
  have hzero : toRat Binary64.zero = 0 := toRat_eq_zero (by decide)
  have hkey : Binary64.zero.key = 0 := by decide
  rw [← hzero, toRat_lt_iff, hkey, Binary64.key]
  cases x.negative
  · simp
  · simp only [if_true, iff_true]
    omega

theorem toRat_ne_zero (hx : x.magnitude ≠ 0) : toRat x ≠ 0 := by
  have hzero : toRat Binary64.zero = 0 := toRat_eq_zero (by decide)
  have hkey : Binary64.zero.key = 0 := by decide
  intro h
  have hle : ¬ x.key < Binary64.zero.key := by
    rw [← toRat_lt_iff, hzero, h]
    exact lt_irrefl _
  have hge : ¬ Binary64.zero.key < x.key := by
    rw [← toRat_lt_iff, hzero, h]
    exact lt_irrefl _
  have hnatAbs := Binary64.natAbs_key x
  omega

/-- The sign of a product and of a quotient. -/
theorem xor_negative (hx : x.magnitude ≠ 0) (hy : y.magnitude ≠ 0) :
    (x.negative ^^ y.negative) = decide (toRat x * toRat y < 0) := by
  have hsign {z : Binary64} (hz : z.magnitude ≠ 0) :
      (z.negative = true → toRat z < 0) ∧ (z.negative = false → 0 < toRat z) := by
    refine ⟨(toRat_neg_iff hz).2, fun hpos => ?_⟩
    apply lt_of_le_of_ne _ (toRat_ne_zero hz).symm
    rw [← not_lt, toRat_neg_iff hz, hpos]
    decide
  cases hxs : x.negative <;> cases hys : y.negative
  · have hpos := mul_pos ((hsign hx).2 hxs) ((hsign hy).2 hys)
    exact (decide_eq_false hpos.not_gt).symm
  · exact (decide_eq_true (mul_neg_of_pos_of_neg ((hsign hx).2 hxs) ((hsign hy).1 hys))).symm
  · exact (decide_eq_true (mul_neg_of_neg_of_pos ((hsign hx).1 hxs) ((hsign hy).2 hys))).symm
  · have hpos := mul_pos_of_neg_of_neg ((hsign hx).1 hxs) ((hsign hy).1 hys)
    exact (decide_eq_false hpos.not_gt).symm

theorem div_neg_iff_mul_neg (hy : y.magnitude ≠ 0) :
    toRat x / toRat y < 0 ↔ toRat x * toRat y < 0 := by
  have hne := toRat_ne_zero hy
  have hsquare : 0 < toRat y * toRat y := mul_self_pos.2 hne
  have hdiv : toRat x * toRat y = toRat x / toRat y * (toRat y * toRat y) := by
    field_simp
  rw [hdiv, mul_neg_iff]
  constructor
  · exact fun h => .inr ⟨h, hsquare⟩
  · rintro (⟨_, h⟩ | ⟨h, _⟩)
    · exact absurd h hsquare.not_gt
    · exact h

end Signs

section Operations

/-- A product whose rounded value is a neighbour is enclosed. -/
theorem directedMul_encloses {product left right : Binary64} (hleft : left.isFinite)
    (hright : right.isFinite) (hl : left.magnitude ≠ 0) (hr : right.magnitude ≠ 0)
    (hn : Neighbour product (toRat left * toRat right)) :
    ∃ pair, directedMul product left right = .ok (some pair) ∧
      Encloses pair (toRat left * toRat right) := by
  cases hproduct : product.isFinite with
  | false =>
    obtain ⟨pair, hpair, hencloses⟩ := overflow_encloses hproduct hn
    exact ⟨pair, by simp [directedMul, hleft, hright, hproduct, hpair], hencloses⟩
  | true =>
    by_cases hzero : product.magnitude = 0
    · have hne := mul_ne_zero (toRat_ne_zero hl) (toRat_ne_zero hr)
      refine ⟨_, ?_, underflow_encloses hzero hn hne⟩
      simp [directedMul, hleft, hright, hproduct, hl, hr, hzero, xor_negative hl hr]
    · obtain ⟨da, db, dq, exact, hda, hdb, hdq, hmul, hcmp, _⟩ := cmp_product hleft hright hproduct
      refine ⟨_, ?_, around_encloses hproduct hn⟩
      simp [directedMul, hleft, hright, hproduct, hl, hr, hzero, hda, hdb, hdq, hmul, hcmp, bind,
        Except.bind]

/-- Comparing products with the denominator compares the quotients. -/
theorem compare_quotient {q n d : ℚ} (hd : d ≠ 0) :
    compare q (n / d) = if d < 0 then (compare (q * d) n).swap else compare (q * d) n := by
  rcases lt_or_gt_of_ne hd with hneg | hpos
  · rw [if_pos hneg]
    rcases lt_trichotomy (q * d) n with h | h | h
    · rw [compare_lt_iff_lt.2 h, compare_gt_iff_gt.2 ((div_lt_iff_of_neg hneg).2 h)]
      rfl
    · rw [compare_eq_iff_eq.2 h, compare_eq_iff_eq.2 ((eq_div_iff hd).2 h)]
      rfl
    · rw [compare_gt_iff_gt.2 h, compare_lt_iff_lt.2 ((lt_div_iff_of_neg hneg).2 h)]
      rfl
  · rw [if_neg hpos.not_gt]
    rcases lt_trichotomy (q * d) n with h | h | h
    · rw [compare_lt_iff_lt.2 h, compare_lt_iff_lt.2 ((lt_div_iff₀ hpos).2 h)]
    · rw [compare_eq_iff_eq.2 h, compare_eq_iff_eq.2 ((eq_div_iff hd).2 h)]
    · rw [compare_gt_iff_gt.2 h, compare_gt_iff_gt.2 ((div_lt_iff₀ hpos).2 h)]

/-- A quotient whose rounded value is a neighbour is enclosed. -/
theorem directedDiv_encloses {quotient numerator denominator : Binary64}
    (hnumerator : numerator.isFinite) (hdenominator : denominator.isFinite)
    (hn0 : numerator.magnitude ≠ 0) (hd0 : denominator.magnitude ≠ 0)
    (hn : Neighbour quotient (toRat numerator / toRat denominator)) :
    ∃ pair, directedDiv quotient numerator denominator = .ok (some pair) ∧
      Encloses pair (toRat numerator / toRat denominator) := by
  cases hquotient : quotient.isFinite with
  | false =>
    obtain ⟨pair, hpair, hencloses⟩ := overflow_encloses hquotient hn
    exact ⟨pair, by simp [directedDiv, hnumerator, hdenominator, hquotient, hd0, hpair],
      hencloses⟩
  | true =>
    by_cases hzero : quotient.magnitude = 0
    · have hne := div_ne_zero (toRat_ne_zero hn0) (toRat_ne_zero hd0)
      refine ⟨_, ?_, underflow_encloses hzero hn hne⟩
      simp [directedDiv, hnumerator, hdenominator, hquotient, hn0, hd0, hzero,
        xor_negative hn0 hd0, div_neg_iff_mul_neg hd0]
    · obtain ⟨dq, dd, dn, product, hdq, hdd, hdn, hmul, _, hcmp⟩ :=
        cmp_product hquotient hdenominator hnumerator
      refine ⟨_, ?_, around_encloses hquotient hn⟩
      rw [compare_quotient (toRat_ne_zero hd0)]
      simp only [toRat_neg_iff hd0]
      simp [directedDiv, hnumerator, hdenominator, hquotient, hn0, hd0, hzero, hdq, hdd, hdn,
        hmul, hcmp, bind, Except.bind]

end Operations

section Root

variable {value x : Binary64} {exact : Dyadic}

/-- The comparison of a square is exact. -/
theorem squareCmp_eq (hx : x.isFinite) (hvalue : value.isFinite)
    (hexact : Dyadic.fromF64 value = .ok exact) :
    squareCmp x exact = .ok (compare (toRat x * toRat x) (toRat value)) := by
  obtain ⟨da, db, dq, product, hda, hdb, hdq, hmul, _, hcmp⟩ := cmp_product hx hx hvalue
  rw [hda, Except.ok.injEq] at hdb
  subst hdb
  rw [hexact, Except.ok.injEq] at hdq
  subst hdq
  simp [squareCmp, hda, hmul, hcmp, bind, Except.bind]

/-- The way down ends at a float whose square is not above. -/
theorem descend_spec (hvalue : value.isFinite) (hpos : 0 < toRat value)
    (hexact : Dyadic.fromF64 value = .ok exact) (fuel : ℕ) :
    ∀ x : Binary64, x.isFinite → 0 ≤ x.key → x.key < fuel →
      ∃ lower, descend exact fuel x = .ok lower ∧ lower.isFinite ∧ 0 ≤ lower.key ∧
        toRat lower * toRat lower ≤ toRat value := by
  induction fuel with
  | zero => exact fun x _ hkey hlt => absurd hlt hkey.not_gt
  | succ fuel ih =>
    intro x hx hkey hlt
    simp only [descend, squareCmp_eq hx hvalue hexact, bind, Except.bind]
    by_cases habove : toRat value < toRat x * toRat x
    · have hkeyPos : x.key ≠ 0 := by
        intro hzero
        have hmagnitude : x.magnitude = 0 := by
          have hnatAbs := Binary64.natAbs_key x
          omega
        rw [toRat_eq_zero hmagnitude] at habove
        linarith
      obtain ⟨_, hdown⟩ := key_nextDown hx
      have hbounds := Binary64.key_bounds_of_isFinite hx
      rw [compare_gt_iff_gt.2 habove]
      simp only [if_true]
      exact ih (nextDown x) (Binary64.isFinite_of_key (by omega) (by omega)) (by omega)
        (by omega)
    · refine ⟨x, ?_, hx, hkey, not_lt.1 habove⟩
      rw [if_neg]
      rw [compare_gt_iff_gt]
      exact habove

theorem toRat_one : toRat Binary64.one = 1 := by
  have hvalue : Binary64.one.value = 2 ^ 1074 := by decide +kernel
  rw [toRat, hvalue]
  norm_num

theorem one_le_toRat_max : 1 ≤ toRat MAX := by
  rw [← toRat_one]
  exact toRat_le_of_key (by decide)

/-- The square of the largest float is above every finite value. -/
theorem toRat_le_max_square (hvalue : value.isFinite) : toRat value ≤ toRat MAX * toRat MAX := by
  have hkey : value.key ≤ MAX.key := by
    have hmaxKey : MAX.key = Binary64.infinite - 1 := by decide
    have hbounds := Binary64.key_bounds_of_isFinite hvalue
    omega
  have hone := one_le_toRat_max
  calc toRat value ≤ toRat MAX := toRat_le_of_key hkey
    _ ≤ toRat MAX * toRat MAX := le_mul_of_one_le_left (by linarith) hone

/-- A float whose square is below a finite value has a finite successor. -/
theorem key_lt_of_square_lt (hvalue : value.isFinite) (hbelow : toRat x * toRat x < toRat value) :
    x.key + 1 < Binary64.infinite := by
  have hmaxKey : MAX.key = Binary64.infinite - 1 := by decide
  by_contra hge
  have hle : toRat MAX ≤ toRat x := toRat_le_of_key (by omega)
  have hone := one_le_toRat_max
  have hsquare := toRat_le_max_square hvalue
  have hgrow : toRat MAX * toRat MAX ≤ toRat x * toRat x :=
    mul_le_mul hle hle (by linarith) (by linarith)
  linarith

/-- The way up ends at a float whose square is not below. -/
theorem ascend_spec (hvalue : value.isFinite) (hexact : Dyadic.fromF64 value = .ok exact)
    (fuel : ℕ) : ∀ x : Binary64, x.isFinite → 0 ≤ x.key → Binary64.infinite - x.key < fuel + 1 →
      0 < fuel → ∃ upper, ascend exact fuel x = .ok upper ∧ upper.isFinite ∧ 0 ≤ upper.key ∧
        toRat value ≤ toRat upper * toRat upper := by
  induction fuel with
  | zero => exact fun x _ _ _ hfuel => absurd hfuel (lt_irrefl _)
  | succ fuel ih =>
    intro x hx hkey hlt _
    simp only [ascend, squareCmp_eq hx hvalue hexact, bind, Except.bind]
    by_cases hbelow : toRat x * toRat x < toRat value
    · have hmax := key_lt_of_square_lt hvalue hbelow
      obtain ⟨_, hup⟩ := key_nextUp hx
      rw [compare_lt_iff_lt.2 hbelow]
      simp only [if_true]
      push_cast at hlt
      exact ih (nextUp x) (Binary64.isFinite_of_key (by omega) (by omega)) (by omega)
        (by omega) (by omega)
    · refine ⟨x, ?_, hx, hkey, not_lt.1 hbelow⟩
      rw [if_neg]
      rw [compare_lt_iff_lt]
      exact hbelow

/-- The lower and upper roots: both searches end, and their squares are on both sides. -/
theorem directedSqrt_encloses {root : Binary64} (hvalue : value.isFinite) (hpos : 0 < toRat value)
    (hroot : root.isFinite) (hkey : 0 ≤ root.key) :
    ∃ pair, directedSqrt root value = .ok pair ∧ pair.lo.isFinite ∧ pair.hi.isFinite ∧
      0 ≤ pair.lo.key ∧ 0 ≤ pair.hi.key ∧ toRat pair.lo * toRat pair.lo ≤ toRat value ∧
        toRat value ≤ toRat pair.hi * toRat pair.hi := by
  have hplain : ¬ (value.magnitude = 0 ∨ value = Binary64.infinity) := by
    rintro (hzero | rfl)
    · rw [toRat_eq_zero hzero] at hpos
      exact lt_irrefl _ hpos
    · cases hvalue
  obtain ⟨exact, hexact, _, _⟩ := fromF64_exact hvalue
  have hbounds := Binary64.key_bounds_of_isFinite hroot
  obtain ⟨lower, hlower, hlowerFinite, hlowerKey, hsquare⟩ :=
    descend_spec hvalue hpos hexact (Binary64.infinite + 1) root hroot hkey
      (by push_cast; omega)
  have hsquareCmp := squareCmp_eq hlowerFinite hvalue hexact
  unfold directedSqrt
  rw [if_neg hplain]
  rcases hsquare.eq_or_lt with heq | hlt
  · rw [compare_eq_iff_eq.2 heq] at hsquareCmp
    refine ⟨⟨lower, lower⟩, ?_, hlowerFinite, hlowerFinite, hlowerKey, hlowerKey, hsquare, heq.ge⟩
    simp [hexact, hlower, hsquareCmp, bind, Except.bind]
  · have hmax := key_lt_of_square_lt hvalue hlt
    obtain ⟨_, hup⟩ := key_nextUp hlowerFinite
    obtain ⟨upper, hupper, hupperFinite, hupperKey, hover⟩ :=
      ascend_spec hvalue hexact (Binary64.infinite + 1) (nextUp lower)
        (Binary64.isFinite_of_key (by omega) (by omega)) (by omega) (by push_cast; omega)
        (by omega)
    rw [compare_lt_iff_lt.2 hlt] at hsquareCmp
    refine ⟨⟨lower, upper⟩, ?_, hlowerFinite, hupperFinite, hlowerKey, hupperKey, hsquare, hover⟩
    simp [hexact, hlower, hsquareCmp, hupper, bind, Except.bind]

end Root

/-- Directed rounding is exact: comparisons with products, then the three operations. -/
theorem directedRounding_exact :
    (∀ a b q : Binary64, a.isFinite → b.isFinite → q.isFinite →
      ∃ da db dq product, Dyadic.fromF64 a = .ok da ∧ Dyadic.fromF64 b = .ok db ∧
        Dyadic.fromF64 q = .ok dq ∧ da.mul db = .ok product ∧
          dq.cmp product = .ok (compare (toRat q) (toRat a * toRat b))) ∧
    (∀ product left right : Binary64, left.isFinite → right.isFinite → left.magnitude ≠ 0 →
      right.magnitude ≠ 0 → Neighbour product (toRat left * toRat right) →
        ∃ pair, directedMul product left right = .ok (some pair) ∧
          Encloses pair (toRat left * toRat right)) ∧
    (∀ quotient numerator denominator : Binary64, numerator.isFinite → denominator.isFinite →
      numerator.magnitude ≠ 0 → denominator.magnitude ≠ 0 →
        Neighbour quotient (toRat numerator / toRat denominator) →
          ∃ pair, directedDiv quotient numerator denominator = .ok (some pair) ∧
            Encloses pair (toRat numerator / toRat denominator)) ∧
    ∀ root value : Binary64, value.isFinite → 0 < toRat value → root.isFinite → 0 ≤ root.key →
      ∃ pair, directedSqrt root value = .ok pair ∧ pair.lo.isFinite ∧ pair.hi.isFinite ∧
        0 ≤ pair.lo.key ∧ 0 ≤ pair.hi.key ∧ toRat pair.lo * toRat pair.lo ≤ toRat value ∧
          toRat value ≤ toRat pair.hi * toRat pair.hi := by
  refine ⟨fun a b q ha hb hq => ?_, ?_, ?_, ?_⟩
  · obtain ⟨da, db, dq, product, hda, hdb, hdq, hmul, hcmp, _⟩ := cmp_product ha hb hq
    exact ⟨da, db, dq, product, hda, hdb, hdq, hmul, hcmp⟩
  · intro product left right hleft hright hl hr hn
    exact directedMul_encloses hleft hright hl hr hn
  · intro quotient numerator denominator hnumerator hdenominator hn0 hd0 hn
    exact directedDiv_encloses hnumerator hdenominator hn0 hd0 hn
  · intro root value hvalue hpos hroot hkey
    exact directedSqrt_encloses hvalue hpos hroot hkey

/-- Three, and the floats around a third. -/
def three : Binary64 := ⟨0x4008000000000000⟩

def belowThird : Binary64 := ⟨0x3FD5555555555555⟩

def aboveThird : Binary64 := ⟨0x3FD5555555555556⟩

theorem toRat_of_value {x : Binary64} {m : ℤ} {e k : ℕ} (hvalue : x.value = m * 2 ^ e)
    (hexponent : e + k = 1074) : toRat x = m / 2 ^ k := by
  have hscale : (2 : ℚ) ^ (-1074 : ℤ) = (2 ^ e * 2 ^ k)⁻¹ := by
    rw [← pow_add, hexponent]
    rfl
  rw [toRat, hvalue, hscale]
  push_cast
  field_simp

theorem toRat_three : toRat three = 3 := by
  rw [toRat_of_value (m := 3) (e := 1074) (k := 0) (by decide +kernel) rfl]
  norm_num

/-- A third is between two floats. -/
theorem neighbour_third : Neighbour belowThird (toRat Binary64.one / toRat three) := by
  have hbelow : toRat belowThird = (0x15555555555555 : ℤ) / 2 ^ 54 :=
    toRat_of_value (e := 1020) (by decide +kernel) rfl
  have habove : toRat aboveThird = (0x15555555555556 : ℤ) / 2 ^ 54 :=
    toRat_of_value (e := 1020) (by decide +kernel) rfl
  rw [toRat_one, toRat_three]
  apply neighbour_of_between (y := aboveThird) (by decide) (by decide)
  · rw [hbelow]
    norm_num
  · rw [habove]
    norm_num

/-- The square of the smallest subnormal underflows. -/
theorem neighbour_underflow : Neighbour Binary64.zero (toRat ⟨1⟩ * toRat ⟨1⟩) := by
  have hzero : toRat Binary64.zero = 0 := toRat_eq_zero rfl
  have hpos : 0 < toRat ⟨1⟩ := by
    rw [← hzero]
    exact toRat_lt_iff.2 (by decide)
  have hlt : toRat ⟨1⟩ < 1 := by
    rw [← toRat_one]
    exact toRat_lt_iff.2 (by decide)
  refine neighbour_of_between (y := ⟨1⟩) (by decide) (by decide) ?_ (mul_lt_of_lt_one_left hpos hlt)
  rw [hzero]
  exact (mul_pos hpos hpos).le

/-- An underflow, a third, and the square root of three. -/
theorem directedRounding_exact_third :
    (∃ da db dq product, Dyadic.fromF64 belowThird = .ok da ∧ Dyadic.fromF64 three = .ok db ∧
      Dyadic.fromF64 Binary64.one = .ok dq ∧ da.mul db = .ok product ∧
        dq.cmp product = .ok (compare (toRat Binary64.one) (toRat belowThird * toRat three))) ∧
    (∃ pair, directedMul Binary64.zero ⟨1⟩ ⟨1⟩ = .ok (some pair) ∧
      Encloses pair (toRat ⟨1⟩ * toRat ⟨1⟩)) ∧
    (∃ pair, directedDiv belowThird Binary64.one three = .ok (some pair) ∧
      Encloses pair (toRat Binary64.one / toRat three)) ∧
    ∃ pair, directedSqrt Binary64.one three = .ok pair ∧ pair.lo.isFinite ∧
      pair.hi.isFinite ∧ 0 ≤ pair.lo.key ∧ 0 ≤ pair.hi.key ∧
        toRat pair.lo * toRat pair.lo ≤ toRat three ∧
          toRat three ≤ toRat pair.hi * toRat pair.hi := by
  obtain ⟨hcmp, hmul, hdiv, hsqrt⟩ := directedRounding_exact
  refine ⟨hcmp _ _ _ (by decide) (by decide) (by decide),
    hmul _ _ _ (by decide) (by decide) (by decide) (by decide) neighbour_underflow,
    hdiv _ _ _ (by decide) (by decide) (by decide) (by decide) neighbour_third,
    hsqrt _ _ (by decide) ?_ (by decide) (by decide)⟩
  rw [toRat_three]
  norm_num

end FrankenSim.CertKernel
