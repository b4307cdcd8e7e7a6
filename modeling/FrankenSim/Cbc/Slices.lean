import FrankenSim.Cbc.AddMultiply

/-!
# An add-multiply in slices

However the budgets cut it, an add-multiply ends with the limbs of one unlimited call.
-/
namespace FrankenSim.Cbc

open Library

theorem factorLimbsLoop_spec (fuel remaining : ℕ) (words : List ℕ) (len : ℕ)
    (hremaining : remaining < RADIX ^ fuel) (hlen : len + fuel ≤ words.length)
    (hwords : ∀ x ∈ words, x < RADIX) :
    (factorLimbsLoop fuel remaining words len).2 = len + (Nat.digits RADIX remaining).length ∧
      (factorLimbsLoop fuel remaining words len).1.take
        (factorLimbsLoop fuel remaining words len).2 =
          words.take len ++ Nat.digits RADIX remaining ∧
      (factorLimbsLoop fuel remaining words len).1.length = words.length ∧
      ∀ x ∈ (factorLimbsLoop fuel remaining words len).1, x < RADIX := by
  induction fuel generalizing remaining words len with
  | zero =>
    obtain rfl : remaining = 0 := by simpa using hremaining
    simp only [factorLimbsLoop, Nat.digits_zero, List.length_nil, add_zero, List.append_nil]
    exact ⟨trivial, trivial, trivial, hwords⟩
  | succ fuel ih =>
    by_cases hzero : remaining = 0
    · subst hzero
      simp only [factorLimbsLoop, ne_eq, not_true, if_false, Nat.digits_zero, List.length_nil,
        add_zero, List.append_nil]
      exact ⟨trivial, trivial, trivial, hwords⟩
    · have hdigits := Nat.digits_def' one_lt_radix (Nat.pos_of_ne_zero hzero)
      have hdiv : remaining / RADIX < RADIX ^ fuel := by
        apply Nat.div_lt_of_lt_mul
        rwa [← pow_succ']
      obtain ⟨hsecond, htake, hlength, hlt⟩ := ih (remaining / RADIX)
        (words.set len (remaining % RADIX)) (len + 1) hdiv (by rw [List.length_set]; omega)
        (Operation.set_lt hwords _ _)
      simp only [factorLimbsLoop, ne_eq, hzero, not_false_eq_true, if_true]
      rw [hdigits, List.length_cons]
      refine ⟨by rw [hsecond]; omega, ?_, by rw [hlength, List.length_set], hlt⟩
      have hnext : (words.set len (remaining % RADIX)).take (len + 1) =
          words.take len ++ [remaining % RADIX] := by
        rw [List.take_add_one, List.take_set_of_le (Nat.le_refl len)]
        simp [show len < words.length by omega]
      rw [htake, hnext, List.append_assoc, List.singleton_append]

/-- The words of a factor begin with its digits. -/
theorem factorLimbsU32_spec {factor : ℕ} (hfactor : factor < 2 ^ 128) :
    (factorLimbsU32 factor).2 = (Nat.digits RADIX factor).length ∧
      (factorLimbsU32 factor).1.take (factorLimbsU32 factor).2 = Nat.digits RADIX factor ∧
      (factorLimbsU32 factor).1.length = 4 ∧
      (∀ x ∈ (factorLimbsU32 factor).1, x < RADIX) ∧ (factorLimbsU32 factor).2 ≤ 4 := by
  have hpow : RADIX ^ 4 = 2 ^ 128 := by decide
  obtain ⟨hsecond, htake, hlength, hlt⟩ := factorLimbsLoop_spec 4 factor [0, 0, 0, 0] 0
    (by omega) (by simp) (by simp [RADIX])
  rw [List.take_zero, List.nil_append] at htake
  rw [zero_add] at hsecond
  refine ⟨hsecond, htake, hlength, hlt, ?_⟩
  rw [factorLimbsU32, hsecond, Nat.digits_length_le_iff one_lt_radix]
  omega

/-- What an add-multiply needs: operands of limbs, and a cap that all lengths and the value
respect. -/
structure SizesFit (dst src : List ℕ) (factor fillTo cap growTo : ℕ) : Prop where
  dst_lt : ∀ x ∈ dst, x < RADIX
  src_lt : ∀ x ∈ src, x < RADIX
  factor_lt : factor < 2 ^ 128
  fillTo_le : fillTo ≤ cap
  cap_le : cap ≤ growTo
  dst_le : dst.length ≤ cap
  product_le : src.length + (factorLimbsU32 factor).2 ≤ cap
  value_lt : Nat.ofDigits RADIX dst + Nat.ofDigits RADIX src * factor < RADIX ^ cap

section Begin

variable {dst src : List ℕ} {factor fillTo cap growTo : ℕ}

def SizesFit.operation (h : SizesFit dst src factor fillTo cap growTo) (hsrc : src ≠ [])
    (hfactor : factor ≠ 0) : Operation where
  src := src
  words := (factorLimbsU32 factor).1
  factorLen := (factorLimbsU32 factor).2
  cap := cap
  total := Nat.ofDigits RADIX dst + Nat.ofDigits RADIX src * factor
  src_lt := h.src_lt
  words_lt := (factorLimbsU32_spec h.factor_lt).2.2.2.1
  factorLen_le := by
    obtain ⟨_, _, hlength, _, hlen⟩ := factorLimbsU32_spec h.factor_lt
    omega
  src_ne_nil := hsrc
  factorLen_pos := by
    rw [(factorLimbsU32_spec h.factor_lt).1]
    exact List.length_pos_of_ne_nil (Nat.digits_ne_nil_iff_ne_zero.2 hfactor)
  fits := h.product_le
  total_lt := h.value_lt

def beginState (dst : List ℕ) (fillTo growTo : ℕ) : KernelState :=
  ⟨dst, beginAddMultiply dst.length fillTo growTo⟩

theorem valid_begin (h : SizesFit dst src factor fillTo cap growTo) (hsrc : src ≠ [])
    (hfactor : factor ≠ 0) : (h.operation hsrc hfactor).Valid (beginState dst fillTo growTo) := by
  have hlength := List.length_pos_of_ne_nil hsrc
  have hrows : Nat.ofDigits RADIX dst + (h.operation hsrc hfactor).rowFrom 0 0 +
      (h.operation hsrc hfactor).rowsAfter 0 =
        Nat.ofDigits RADIX dst + Nat.ofDigits RADIX src * factor := by
    have hfactorValue : Nat.ofDigits RADIX (h.operation hsrc hfactor).factor = factor := by
      rw [Operation.factor]
      simp only [SizesFit.operation]
      rw [(factorLimbsU32_spec h.factor_lt).2.1, Nat.ofDigits_digits]
    have hsplit := ofDigits_drop RADIX hlength
    rw [List.drop_zero] at hsplit
    rw [Operation.rowFrom, Operation.rowsAfter, List.drop_zero, hfactorValue]
    simp only [SizesFit.operation]
    rw [List.getD_eq_getElem _ _ hlength, hsplit]
    ring
  have hcap := h.cap_le
  have hdst := h.dst_le
  refine ⟨rfl, h.cap_le, h.fillTo_le, h.dst_lt, h.dst_le, Nat.zero_lt_of_lt one_lt_radix, hlength,
    Nat.zero_le _, ?_, ?_⟩
  · by_cases hfill : dst.length < fillTo
    · simp [Operation.Placed, beginState, beginAddMultiply, hfill]
    · have hcap : dst.length ≤ (h.operation hsrc hfactor).cap := h.dst_le
      simpa [Operation.Placed, beginState, beginAddMultiply, hfill] using hcap
  · apply Eq.trans _ hrows
    by_cases hfill : dst.length < fillTo
    · simp [Operation.pending, beginState, beginAddMultiply, hfill]
    · simp [Operation.pending, beginState, beginAddMultiply, hfill]

theorem stepAddMultiply_nothing (h : SizesFit dst src factor fillTo cap growTo)
    (hnothing : src = [] ∨ factor = 0) (budget : ℕ) :
    stepAddMultiply src (factorLimbsU32 factor).1 (factorLimbsU32 factor).2
      (beginState dst fillTo growTo) budget =
        .ok (beginState dst fillTo growTo, .complete 0) := by
  have hdst := h.dst_le
  have hcap := h.cap_le
  have hfill := h.fillTo_le
  have hlen : src = [] ∨ (factorLimbsU32 factor).2 = 0 := by
    obtain hnil | rfl := hnothing
    · exact .inl hnil
    · exact .inr rfl
  rw [stepAddMultiply, if_neg, if_pos hlen]
  simp only [beginState, beginAddMultiply]
  rintro (hversion | hbound)
  · exact hversion rfl
  · omega

structure Summed (dst src : List ℕ) (factor cap : ℕ) (final : List ℕ) : Prop where
  limbs_lt : ∀ x ∈ final, x < RADIX
  length_le : final.length ≤ cap
  value_eq : Nat.ofDigits RADIX final =
    Nat.ofDigits RADIX dst + Nat.ofDigits RADIX src * factor

/-- Calls with positive budgets complete after finitely many, in the state of every call with
an unlimited budget. -/
theorem addMultiply_exact (h : SizesFit dst src factor fillTo cap growTo) :
    ∃ final : KernelState, Summed dst src factor cap final.dst ∧
      (∀ budgets : ℕ → ℕ, (∀ i, 0 < budgets i) → ∃ k cells,
        calls (stepAddMultiply src (factorLimbsU32 factor).1 (factorLimbsU32 factor).2)
          ((List.range k).map budgets) (beginState dst fillTo growTo) =
            .ok (final, .complete cells) ∧
        ∀ j < k, ∃ s cells,
          calls (stepAddMultiply src (factorLimbsU32 factor).1 (factorLimbsU32 factor).2)
            ((List.range j).map budgets) (beginState dst fillTo growTo) =
              .ok (s, .advanced cells)) ∧
      ∃ unlimited, ∀ budget ≥ unlimited, ∃ cells,
        stepAddMultiply src (factorLimbsU32 factor).1 (factorLimbsU32 factor).2
          (beginState dst fillTo growTo) budget = .ok (final, .complete cells) := by
  by_cases hnothing : src = [] ∨ factor = 0
  · have hstep := stepAddMultiply_nothing h hnothing
    refine ⟨beginState dst fillTo growTo, ⟨h.dst_lt, h.dst_le, ?_⟩, ?_, 0, fun budget _ =>
      ⟨0, hstep budget⟩⟩
    · obtain rfl | rfl := hnothing
      · simp [beginState]
      · simp [beginState]
    · intro budgets _
      refine ⟨1, 0, by simp [calls, hstep, bind, Except.bind], ?_⟩
      intro j hj
      obtain rfl : j = 0 := by omega
      exact ⟨_, 0, rfl⟩
  · rw [not_or] at hnothing
    obtain ⟨hsrc, hfactor⟩ := hnothing
    have hvalid := valid_begin h hsrc hfactor
    obtain ⟨n, final, hfinishes, hdone⟩ := finishes_of_descends Operation.turn_descends hvalid
    refine ⟨final, ⟨hdone.limbs_lt, hdone.length_le, hdone.value_eq⟩, ?_, n + 1, ?_⟩
    · intro budgets hbudgets
      obtain ⟨k, cells, hcalls, hpauses⟩ := calls_complete
        (fun s m budget hs hm hbudget => Operation.stepAddMultiply_progresses hs hm hbudget) n
        _ hvalid hfinishes budgets hbudgets
      refine ⟨k, cells, hcalls, ?_⟩
      intro j hj
      obtain ⟨s, cells', _, hpause⟩ := hpauses j hj
      exact ⟨s, cells', hpause⟩
    · intro budget hbudget
      have hbound := (h.operation hsrc hfactor).measure_lt_turnBound (beginState dst fillTo growTo)
      have hmeasure := hfinishes.le_measure Operation.turn_descends hvalid
      obtain ⟨cells, hcells⟩ := @turns_unlimited _ _ _ Fault.endless _ _ _ hfinishes budget
        (turnBound src (factorLimbsU32 factor).2 (beginState dst fillTo growTo).cursor) 0
        (lt_of_le_of_lt hmeasure hbound) (by omega)
      exact ⟨cells, (Operation.stepAddMultiply_eq hvalid budget).trans hcells⟩

end Begin

end FrankenSim.Cbc
