import FrankenSim.Cbc.Capacities
import FrankenSim.Cbc.Ordering

/-!
# The limb kernel is exact under every slicing

The operations of the kernel together, and the capacities under which an admitted problem runs
them.
-/
namespace FrankenSim.Cbc

open Library

/-- Add-multiplies that fit their growth bound complete under all positive budgets with the
limbs of an unlimited call; comparisons and normalizations under any budgets are those of one
call; scratch products are normalized or leave their limbs; and the capacities of an admitted
problem are enough for all of its scans and updates. That a call is `.ok` says that no machine
word overflowed and that no index left its vector. -/
theorem limbKernel_exact :
    (∀ {dst src : List ℕ} {factor fillTo growTo : ℕ},
      SizesFit dst src factor fillTo growTo growTo →
      ∃ final : KernelState, Summed dst src factor growTo final.dst ∧
        (∀ budgets : ℕ → ℕ, (∀ i, 0 < budgets i) → ∃ k cells,
          calls (stepAddMultiply src (factorLimbsU32 factor).1 (factorLimbsU32 factor).2)
            ((List.range k).map budgets) (beginState dst fillTo growTo) =
              .ok (final, .complete cells) ∧
          ∀ j < k, ∃ s cells,
            calls (stepAddMultiply src (factorLimbsU32 factor).1 (factorLimbsU32 factor).2)
              ((List.range j).map budgets) (beginState dst fillTo growTo) =
                .ok (s, .advanced cells)) ∧
        ∃ unlimited, ∀ budget ≥ unlimited, ∃ cells,
          stepAddMultiply src (factorLimbsU32 factor).1 (factorLimbsU32 factor).2
            (beginState dst fillTo growTo) budget = .ok (final, .complete cells)) ∧
    (∀ a b budgets : List ℕ, ∃ pos,
      compareCalls a b budgets a.length = .ok (some (magnitudeCmp a b), pos) ∨
        compareCalls a b budgets a.length = .ok (none, pos) ∧
          (budgets = [] ∨ budgets.sum < a.length)) ∧
    (∀ budgets dst : List ℕ, normalize (normalizeCalls budgets dst) = normalize dst ∧
      (∀ budget > 0, (stepNormalize (normalizeCalls budgets dst) budget).2 = 0 →
        normalizeCalls budgets dst = normalize dst) ∧
      (dst.length ≤ budgets.sum → normalizeCalls budgets dst = normalize dst)) ∧
    (∀ {limbs : List ℕ} {factor : ℕ}, (∀ x ∈ limbs, x < RADIX) →
      limbs.length ≤ VEC_LIMBS_MAX → factor < 2 ^ 128 →
      ∀ limbsCapacity capacityLimbs scratchCapacity : ℕ,
        (ScratchFits limbs limbsCapacity factor capacityLimbs scratchCapacity →
          mulAssignFactorScratch limbs limbsCapacity factor capacityLimbs scratchCapacity =
            .ok (.ok (), Nat.digits RADIX (Nat.ofDigits RADIX limbs * factor))) ∧
        (¬ ScratchFits limbs limbsCapacity factor capacityLimbs scratchCapacity →
          ∃ missing,
            mulAssignFactorScratch limbs limbsCapacity factor capacityLimbs scratchCapacity =
              .ok (.error missing, limbs))) ∧
    (∀ {problem : CbcProblem} {capacities : LimbCapacities},
      limbCapacities problem = .ok capacities → ∀ generators : List ℕ,
      generators.length < problem.dimension → ∀ point < problem.pointCount,
        (∀ candidate growTo budget, capacities.scoreCapacityLimbs ≤ growTo → 0 < budget →
          ∃ score, runningScore growTo budget
              (scanTerms problem.pointCount candidate generators point) = .ok score ∧
            ScanFits problem.pointCount candidate generators capacities.scoreCapacityLimbs growTo
              point score) ∧
        ∀ generator limbsCapacity scratchCapacity,
          capacities.productCapacityLimbs ≤ scratchCapacity →
          mulAssignFactorScratch
            (Nat.digits RADIX (kernelProduct problem.pointCount point generators))
            limbsCapacity (exactKernelNumerator problem.pointCount
              (latticeResidue point generator problem.pointCount))
            capacities.productCapacityLimbs scratchCapacity =
              .ok (.ok (), Nat.digits RADIX
                (kernelProduct problem.pointCount point (generators ++ [generator])))) := by
  refine ⟨fun h => addMultiply_exact h, fun a b budgets => compareCalls_exact a b budgets,
    fun budgets dst => normalizeCalls_exact budgets dst,
    fun hlimbs hlength hfactor limbsCapacity capacityLimbs scratchCapacity =>
      mulAssignFactorScratch_spec hlimbs hlength hfactor limbsCapacity capacityLimbs
        scratchCapacity, ?_⟩
  intro problem capacities h generators hlength point hpoint
  have hadmitted := admitted_of_ok h
  constructor
  · intro candidate growTo budget hgrow hbudget
    have hbound := hadmitted.scanBound candidate hlength
    obtain ⟨score, hscore, hscored⟩ := hbound.foldlM_spec hgrow
      (fun hfits => accumulate_spec hfits hbudget) hpoint.le
    exact ⟨score, hscore, hbound.scanFits hgrow hpoint hscored⟩
  · intro generator limbsCapacity scratchCapacity hscratch
    exact hadmitted.update_eq point generator hlength limbsCapacity hscratch

/-- A carry that ripples through a full limb, and a problem of five points. -/
theorem limbKernel_exact_ripple :
    (∃ final : KernelState,
      Summed [4294967295, 4294967295] [4294967295, 1] 1099511627781 5 final.dst ∧
        (∃ k cells,
          calls (stepAddMultiply [4294967295, 1] (factorLimbsU32 1099511627781).1
            (factorLimbsU32 1099511627781).2) ((List.range k).map fun i => i + 1)
              (beginState [4294967295, 4294967295] 5 5) = .ok (final, .complete cells)) ∧
        ∃ unlimited, ∀ budget ≥ unlimited, ∃ cells,
          stepAddMultiply [4294967295, 1] (factorLimbsU32 1099511627781).1
            (factorLimbsU32 1099511627781).2
              (beginState [4294967295, 4294967295] 5 5) budget = .ok (final, .complete cells)) ∧
    mulAssignFactorScratch [4294967295] 1 5 3 1 =
      .ok (.ok (), Nat.digits RADIX (Nat.ofDigits RADIX [4294967295] * 5)) ∧
    (∃ score, runningScore 3 1 (scanTerms 5 2 [1] 3) = .ok score ∧
      ScanFits 5 2 [1] 3 3 3 score) := by
  obtain ⟨hslices, _, _, hscratch, hcapacities⟩ := limbKernel_exact
  refine ⟨?_, ?_, ?_⟩
  · have hfits : SizesFit [4294967295, 4294967295] [4294967295, 1] 1099511627781 5 5 5 := by
      constructor
      · decide
      · decide
      · decide
      · decide
      · decide
      · decide
      · decide
      · decide
    obtain ⟨final, hsum, hsliced, hunlimited⟩ := hslices hfits
    obtain ⟨k, cells, hcalls, -⟩ := hsliced (fun i => i + 1) fun i => i.succ_pos
    exact ⟨final, hsum, ⟨k, cells, hcalls⟩, hunlimited⟩
  · exact (hscratch (by decide) (by decide) (by decide) 1 3 1).1
      (.inr (.inr ⟨by decide, by decide⟩))
  · exact (@hcapacities ⟨5, 2, by decide, by decide, by decide, by decide⟩ _ (by rfl) [1]
      (by decide) 3 (by decide)).1 2 3 1 (by decide) (by decide)

end FrankenSim.Cbc
