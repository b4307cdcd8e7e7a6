import FrankenSim.Cbc.Slices

/-!
# Natural numbers of exact scores

The exact scores and products are numerals of base-2³² limbs. Their arithmetic runs the limb
kernel without a limit on its cells.
-/
namespace FrankenSim.Cbc

open Library

/-- Pop the zero limbs at the high end. -/
def normalize (limbs : List ℕ) : List ℕ := trimmed limbs

/-- The length first, then the limbs from the high end. -/
def magnitudeCmp (a b : List ℕ) : Ordering :=
  match compare a.length b.length with
  | .eq => List.compareLex compare a.reverse b.reverse
  | other => other

/-- Calls with one budget until a call completes, on fuel. -/
def addMulLoop (src words : List ℕ) (factorLen budget : ℕ) :
    ℕ → KernelState → Except Fault (List ℕ)
  | 0, _ => .error .endless
  | fuel + 1, s => do
    let result ← stepAddMultiply src words factorLen s budget
    match result with
    | (s', .advanced _) => addMulLoop src words factorLen budget fuel s'
    | (s', .complete _) => .ok s'.dst
    | (_, .refused) => .error .unreachable

/-- The whole add-multiply in calls of one budget, below a ceiling for the growth. -/
def accumulate (growTo budget : ℕ) (limbs src : List ℕ) (factor : ℕ) : Except Fault (List ℕ) :=
  let (words, factorLen) := factorLimbsU32 factor
  let s := beginState limbs (src.length + factorLen + 1) growTo
  addMulLoop src words factorLen budget (turnBound src factorLen s.cursor + 1) s

def addMulSliceFactor (limbs src : List ℕ) (factor : ℕ) : Except Fault (List ℕ) :=
  if factor = 0 ∨ src = [] then .ok limbs
  else
    let (_, factorLen) := factorLimbsU32 factor
    if USIZE_MAX < src.length + factorLen + 1 then .error .overflow
    else accumulate USIZE_MAX USIZE_MAX limbs src factor

def mulAssignFactor (limbs : List ℕ) (factor : ℕ) : Except Fault (List ℕ) := do
  let product ← addMulSliceFactor [] limbs factor
  .ok (normalize product)

def factorLimbCountLoop : ℕ → ℕ → ℕ → ℕ
  | 0, _, limbs => limbs
  | fuel + 1, factor, limbs =>
    if factor ≠ 0 then factorLimbCountLoop fuel (factor / RADIX) (limbs + 1) else limbs

def factorLimbCount (factor : ℕ) : ℕ := factorLimbCountLoop 4 factor 0

/-- Multiply by `factor` through a scratch buffer, then normalize; the outcome, which names the
limbs that are missing, and the limbs afterwards. -/
def mulAssignFactorScratch (limbs : List ℕ)
    (limbsCapacity factor capacityLimbs scratchCapacity : ℕ) :
    Except Fault (Except ℕ Unit × List ℕ) :=
  if factor = 0 ∨ limbs = [] then .ok (.ok (), [])
  else if scratchCapacity < limbs.length then .ok (.error limbs.length, limbs)
  else
    let required := limbs.length + factorLimbCount factor + 1
    if USIZE_MAX < required then .error .overflow
    else if max capacityLimbs limbsCapacity < required then .ok (.error required, limbs)
    else do
      let product ← addMulSliceFactor [] limbs factor
      .ok (.ok (), normalize product)

theorem factorLimbCountLoop_eq (fuel factor limbs : ℕ) (h : factor < RADIX ^ fuel) :
    factorLimbCountLoop fuel factor limbs = limbs + (Nat.digits RADIX factor).length := by
  induction fuel generalizing factor limbs with
  | zero =>
    obtain rfl : factor = 0 := by simpa using h
    simp [factorLimbCountLoop]
  | succ fuel ih =>
    by_cases hzero : factor = 0
    · simp [factorLimbCountLoop, hzero]
    · have hdiv : factor / RADIX < RADIX ^ fuel := by
        apply Nat.div_lt_of_lt_mul
        rwa [← pow_succ']
      have hdigits := Nat.digits_def' one_lt_radix (Nat.pos_of_ne_zero hzero)
      simp only [factorLimbCountLoop, ne_eq, hzero, not_false_eq_true, if_true]
      rw [ih _ _ hdiv, hdigits, List.length_cons]
      omega

theorem factorLimbCount_eq {factor : ℕ} (h : factor < 2 ^ 128) :
    factorLimbCount factor = (factorLimbsU32 factor).2 := by
  have hpow : RADIX ^ 4 = 2 ^ 128 := by decide
  rw [factorLimbCount, factorLimbCountLoop_eq 4 factor 0 (by omega), zero_add,
    (factorLimbsU32_spec h).1]

theorem addMulLoop_eq {op : Operation} {final : KernelState} {budget : ℕ} (hbudget : 0 < budget)
    (n : ℕ) : ∀ fuel s, n < fuel → op.Valid s →
      Finishes (turn op.src op.words op.factorLen) final n s →
        addMulLoop op.src op.words op.factorLen budget fuel s = .ok final.dst := by
  induction n using Nat.strong_induction_on with
  | _ n ih =>
    intro fuel s hfuel hs hfinishes
    obtain ⟨fuel, rfl⟩ : ∃ k, fuel = k + 1 := ⟨fuel - 1, by omega⟩
    obtain ⟨⟨s', outcome⟩, hresult, hprogresses⟩ :=
      Operation.stepAddMultiply_progresses hs hfinishes hbudget
    simp only [addMulLoop, hresult, bind, Except.bind]
    cases outcome with
    | advanced cells =>
      obtain ⟨hs', m, hm, hrest⟩ := hprogresses
      exact ih m hm fuel s' (by omega) hs' hrest
    | complete cells =>
      have hfinal : s' = final := hprogresses
      rw [hfinal]
    | refused => exact hprogresses.elim

/-- Limbs of an accumulation denote the sum and stay below the cap. -/
theorem accumulate_spec {limbs src : List ℕ} {factor cap growTo budget : ℕ}
    (h : SizesFit limbs src factor (src.length + (factorLimbsU32 factor).2 + 1) cap growTo)
    (hbudget : 0 < budget) :
    ∃ final, accumulate growTo budget limbs src factor = .ok final ∧
      Summed limbs src factor cap final := by
  by_cases hnothing : src = [] ∨ factor = 0
  · have hstep := stepAddMultiply_nothing h hnothing budget
    refine ⟨limbs, ?_, h.dst_lt, h.dst_le, ?_⟩
    · simp only [accumulate, addMulLoop, hstep, bind, Except.bind]
      rfl
    · obtain rfl | rfl := hnothing
      · simp
      · simp
  · rw [not_or] at hnothing
    obtain ⟨hsrc, hfactor⟩ := hnothing
    have hvalid := valid_begin h hsrc hfactor
    obtain ⟨n, final, hfinishes, hdone⟩ := finishes_of_descends Operation.turn_descends hvalid
    have hbound := (h.operation hsrc hfactor).measure_lt_turnBound
      (beginState limbs (src.length + (factorLimbsU32 factor).2 + 1) growTo)
    have hmeasure := hfinishes.le_measure Operation.turn_descends hvalid
    refine ⟨final.dst, ?_, hdone.limbs_lt, hdone.length_le, hdone.value_eq⟩
    exact addMulLoop_eq hbudget n _ _ (Nat.lt_succ_of_lt (lt_of_le_of_lt hmeasure hbound)) hvalid
      hfinishes

theorem addMulSliceFactor_spec {limbs src : List ℕ} {factor cap : ℕ}
    (h : SizesFit limbs src factor (src.length + (factorLimbsU32 factor).2 + 1) cap USIZE_MAX) :
    ∃ final, addMulSliceFactor limbs src factor = .ok final ∧
      Summed limbs src factor cap final := by
  by_cases hnothing : factor = 0 ∨ src = []
  · refine ⟨limbs, by rw [addMulSliceFactor, if_pos hnothing], h.dst_lt, h.dst_le, ?_⟩
    obtain rfl | rfl := hnothing
    · simp
    · simp
  · have hneeded := h.fillTo_le.trans h.cap_le
    rw [addMulSliceFactor, if_neg hnothing]
    simp only
    rw [if_neg (by omega)]
    exact accumulate_spec h (by decide)

/-- A vector of `u32` takes at most `isize::MAX` bytes. -/
def VEC_LIMBS_MAX : ℕ := 2305843009213693951

theorem factor_lt_pow {factor : ℕ} (h : factor < 2 ^ 128) :
    factor < RADIX ^ (factorLimbsU32 factor).2 := by
  rw [(factorLimbsU32_spec h).1]
  exact Nat.lt_base_pow_length_digits one_lt_radix

theorem product_lt_pow {limbs : List ℕ} {factor : ℕ} (hlimbs : ∀ x ∈ limbs, x < RADIX)
    (hfactor : factor < 2 ^ 128) : Nat.ofDigits RADIX limbs * factor <
      RADIX ^ (limbs.length + (factorLimbsU32 factor).2) := by
  rw [pow_add]
  exact Nat.mul_lt_mul'' (ofDigits_lt_pow one_lt_radix hlimbs) (factor_lt_pow hfactor)

theorem sizesFit_product {limbs : List ℕ} {factor : ℕ} (hlimbs : ∀ x ∈ limbs, x < RADIX)
    (hlength : limbs.length ≤ VEC_LIMBS_MAX) (hfactor : factor < 2 ^ 128) :
    SizesFit [] limbs factor (limbs.length + (factorLimbsU32 factor).2 + 1)
      (limbs.length + (factorLimbsU32 factor).2 + 1) USIZE_MAX where
  dst_lt := by simp
  src_lt := hlimbs
  factor_lt := hfactor
  fillTo_le := le_refl _
  cap_le := by
    have hwords := (factorLimbsU32_spec hfactor).2.2.2.2
    simp only [VEC_LIMBS_MAX, USIZE_MAX] at *
    omega
  dst_le := Nat.zero_le _
  product_le := Nat.le_succ _
  value_lt := by
    rw [Nat.ofDigits_nil, zero_add]
    apply (product_lt_pow hlimbs hfactor).trans
    exact Nat.pow_lt_pow_right one_lt_radix (Nat.lt_succ_self _)

theorem mulAssignFactor_eq {limbs : List ℕ} {factor : ℕ} (hlimbs : ∀ x ∈ limbs, x < RADIX)
    (hlength : limbs.length ≤ VEC_LIMBS_MAX) (hfactor : factor < 2 ^ 128) :
    mulAssignFactor limbs factor =
      .ok (Nat.digits RADIX (Nat.ofDigits RADIX limbs * factor)) := by
  obtain ⟨final, hfinal, hsum⟩ :=
    addMulSliceFactor_spec (sizesFit_product hlimbs hlength hfactor)
  rw [mulAssignFactor, hfinal]
  simp only [bind, Except.bind, normalize]
  rw [trimmed_eq_digits one_lt_radix hsum.limbs_lt, hsum.value_eq, Nat.ofDigits_nil, zero_add]

/-- There is room for a product. -/
def ScratchFits (limbs : List ℕ) (limbsCapacity factor capacityLimbs scratchCapacity : ℕ) :
    Prop :=
  factor = 0 ∨ limbs = [] ∨ limbs.length ≤ scratchCapacity ∧
    limbs.length + (factorLimbsU32 factor).2 + 1 ≤ max capacityLimbs limbsCapacity

/-- The scratch product is the normalized product where there is room for it, and otherwise
leaves the limbs as they were. -/
theorem mulAssignFactorScratch_spec {limbs : List ℕ} {factor : ℕ}
    (hlimbs : ∀ x ∈ limbs, x < RADIX) (hlength : limbs.length ≤ VEC_LIMBS_MAX)
    (hfactor : factor < 2 ^ 128) (limbsCapacity capacityLimbs scratchCapacity : ℕ) :
    (ScratchFits limbs limbsCapacity factor capacityLimbs scratchCapacity →
      mulAssignFactorScratch limbs limbsCapacity factor capacityLimbs scratchCapacity =
        .ok (.ok (), Nat.digits RADIX (Nat.ofDigits RADIX limbs * factor))) ∧
    (¬ ScratchFits limbs limbsCapacity factor capacityLimbs scratchCapacity →
      ∃ missing,
        mulAssignFactorScratch limbs limbsCapacity factor capacityLimbs scratchCapacity =
          .ok (.error missing, limbs)) := by
  have hwords := (factorLimbsU32_spec hfactor).2.2.2.2
  have hrequired : ¬ USIZE_MAX < limbs.length + (factorLimbsU32 factor).2 + 1 := by
    simp only [VEC_LIMBS_MAX, USIZE_MAX] at *
    omega
  have hproduct := mulAssignFactor_eq hlimbs hlength hfactor
  constructor
  · intro hfits
    by_cases hnothing : factor = 0 ∨ limbs = []
    · rw [mulAssignFactorScratch, if_pos hnothing]
      obtain rfl | rfl := hnothing
      · simp
      · simp
    · obtain hzero | hnil | ⟨hscratch, hroom⟩ := hfits
      · exact absurd (.inl hzero) hnothing
      · exact absurd (.inr hnil) hnothing
      · rw [mulAssignFactorScratch, if_neg hnothing, if_neg (by omega)]
        simp only [factorLimbCount_eq hfactor]
        rw [if_neg hrequired, if_neg (by omega)]
        simp only [mulAssignFactor, bind, Except.bind] at hproduct ⊢
        cases hsum : addMulSliceFactor [] limbs factor with
        | error e => simp [hsum] at hproduct
        | ok product =>
          rw [hsum] at hproduct
          simp only [Except.ok.injEq] at hproduct ⊢
          rw [hproduct]
  · intro hfits
    rw [ScratchFits, not_or, not_or, not_and_or] at hfits
    obtain ⟨hzero, hnil, hmissing⟩ := hfits
    rw [mulAssignFactorScratch, if_neg (not_or.2 ⟨hzero, hnil⟩)]
    by_cases hscratch : scratchCapacity < limbs.length
    · exact ⟨_, if_pos hscratch⟩
    · rw [if_neg hscratch]
      simp only [factorLimbCount_eq hfactor]
      rw [if_neg hrequired, if_pos (by omega)]
      exact ⟨_, rfl⟩

/-- On normalized limbs the magnitudes compare as the numbers do. -/
theorem magnitudeCmp_digits (m n : ℕ) :
    magnitudeCmp (Nat.digits RADIX m) (Nat.digits RADIX n) = compare m n := by
  have hlt (k : ℕ) : ∀ x ∈ Nat.digits RADIX k, x < RADIX := fun _ hx =>
    Nat.digits_lt_base one_lt_radix hx
  rw [magnitudeCmp]
  rcases lt_trichotomy (Nat.digits RADIX m).length (Nat.digits RADIX n).length with h | h | h
  · rw [compare_lt_iff_lt.2 h]
    apply (compare_lt_iff_lt.2 _).symm
    by_contra hle
    have := Nat.le_length_digits_le RADIX n m (Nat.le_of_not_lt hle)
    omega
  · rw [compare_eq_iff_eq.2 h]
    simp only
    rw [compareLex_reverse one_lt_radix (hlt m) (hlt n) h, Nat.ofDigits_digits,
      Nat.ofDigits_digits]
  · rw [compare_gt_iff_gt.2 h]
    apply (compare_gt_iff_gt.2 _).symm
    by_contra hle
    have := Nat.le_length_digits_le RADIX m n (Nat.le_of_not_lt hle)
    omega

end FrankenSim.Cbc
