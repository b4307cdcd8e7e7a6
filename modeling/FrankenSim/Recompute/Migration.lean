import FrankenSim.Library.Binary64
import FrankenSim.Library.Overwrites
import FrankenSim.Library.Refusals
import FrankenSim.Recompute.Semantic
import Std.Data.String.ToInt

/-!
# What a migrated record keeps

The migration of a legacy record tags every parameter value with its type and
collects the parameters in a map; a tolerance that is not positive leaves no
trace in the key. Two records with one key therefore agree on everything except
the parameters that a later one overwrites and tolerances that are not positive.
-/
namespace FrankenSim.Recompute

open Library

section Tags

/-- The value of an upper case hexadecimal digit. -/
def hexDigitValue (c : Char) : ℕ := if c.toNat < 65 then c.toNat - 48 else c.toNat - 55

def hexValue (digits : List Char) : ℕ := digits.foldl (fun n c => 16 * n + hexDigitValue c) 0

theorem hexDigitValue_digitChar (d : Fin 16) :
    hexDigitValue (Nat.digitChar d).toUpper = d := by
  revert d
  decide

theorem hexValue_toDigits (n : ℕ) : hexValue ((Nat.toDigits 16 n).map Char.toUpper) = n := by
  induction n using Nat.strongRecOn with
  | ind n ih =>
    rw [Nat.toDigits_eq_if (by decide)]
    split
    case isTrue h => simpa [hexValue] using hexDigitValue_digitChar ⟨n, h⟩
    case isFalse h =>
      have hlast := hexDigitValue_digitChar ⟨n % 16, Nat.mod_lt _ (by decide)⟩
      have hrest := ih (n / 16) (by omega)
      simp only [hexValue] at hrest
      simp only [hexValue, List.map_append, List.map_singleton, List.foldl_append, hrest,
        List.foldl_cons, List.foldl_nil, hlast]
      omega

theorem hexValue_replicate_zero (k : ℕ) (digits : List Char) :
    hexValue (List.replicate k '0' ++ digits) = hexValue digits := by
  induction k with
  | zero => rfl
  | succ k ih => simpa [List.replicate_succ, hexValue, hexDigitValue] using ih

theorem upperHex16_injective : Function.Injective upperHex16 := by
  intro a b h
  have hvalue := congrArg (fun s => hexValue s.toList) h
  simp only [upperHex16, String.toList_ofList, hexValue_replicate_zero, hexValue_toDigits] at hvalue
  exact UInt64.toNat_inj.1 hvalue

theorem append_right_injective (tag : String) : Function.Injective (tag ++ ·) := by
  intro s t h
  have hchars := congrArg String.toList h
  simp only [String.toList_append, List.append_cancel_left_eq] at hchars
  exact String.toList_inj.1 hchars

theorem head_tag (c d : Char) {tag tag' s t : String} (htag : tag.toList.head? = some c)
    (htag' : tag'.toList.head? = some d) (h : tag ++ s = tag' ++ t) : c = d := by
  have hchars := congrArg (fun u => u.toList.head?) h
  simp only [String.toList_append, List.head?_append, htag, htag', Option.some_or] at hchars
  exact Option.some.inj hchars

/-- A tagged value is read back as its own kind, also when a string looks like
a tagged number. -/
theorem migrateParam_injective : Function.Injective migrateParam := by
  intro v w h
  cases v with
  | f64 a =>
    cases w with
    | f64 b => exact congrArg ParamValue.f64 (upperHex16_injective (append_right_injective _ h))
    | int b => exact absurd (head_tag 'f' 'i' rfl rfl h) (by decide)
    | str b => exact absurd (head_tag 'f' 's' rfl rfl h) (by decide)
  | int a =>
    cases w with
    | f64 b => exact absurd (head_tag 'i' 'f' rfl rfl h) (by decide)
    | int b =>
      have hint := Int.repr_injective (append_right_injective _ h)
      exact congrArg ParamValue.int (Int64.toInt_inj.1 hint)
    | str b => exact absurd (head_tag 'i' 's' rfl rfl h) (by decide)
  | str a =>
    cases w with
    | f64 b => exact absurd (head_tag 's' 'f' rfl rfl h) (by decide)
    | int b => exact absurd (head_tag 's' 'i' rfl rfl h) (by decide)
    | str b => exact congrArg ParamValue.str (append_right_injective _ h)

end Tags

/-- The fields that tell computations apart: the tolerance is compared as a
number, the parameters as a multiset. -/
structure SameComputation (r s : NodeRecord Binary64) : Prop where
  opId : r.opId = s.opId
  inputHashes : r.inputHashes = s.inputHashes
  params : r.params.Perm s.params
  codeVersionHash : r.codeVersionHash = s.codeVersionHash
  rngSeed : r.rngSeed = s.rngSeed
  requiredTolerance : r.requiredTolerance.eq s.requiredTolerance = true

section

variable [Binary64.Text] {r s : NodeRecord Binary64} {artifact artifact' : ContentHash}
  {key key' : ComputationKey} {obs obs' : OutputObservation Binary64}

/-- Both records are accepted, with one key. -/
def ShareMigratedKey (r s : NodeRecord Binary64) : Prop :=
  ∃ artifact artifact' key obs obs', migrateLegacyNodeRecord r artifact = .ok (key, obs) ∧
    migrateLegacyNodeRecord s artifact' = .ok (key, obs')

def migratedParams (record : NodeRecord Binary64) : List (String × String) :=
  (record.params.foldl (fun m p => m.insert p.1 (migrateParam p.2))
    (∅ : Std.TreeMap String String)).toList

theorem ExecutionPolicy.tryNew_eq_ok {c : DeterminismClass} {role : ToleranceRole}
    {tolerance : Option Binary64} {seed : UInt64} {code : ContentHash} {cap : Option UInt64}
    {policy : ExecutionPolicy Binary64}
    (h : ExecutionPolicy.tryNew c role tolerance seed code cap = .ok policy) :
    (∀ tol, tolerance = some tol → FloatOps.isFinite tol = true) ∧
      policy = ⟨c, role, tolerance, seed, code, cap⟩ := by
  cases tolerance with
  | none =>
    by_cases haffects : role.affectsComputation = true
    · simp only [ExecutionPolicy.tryNew, haffects, if_true] at h
      cases h
    · simp only [ExecutionPolicy.tryNew, haffects] at h
      exact ⟨fun _ hnone => (nomatch hnone), (Except.ok.inj h).symm⟩
  | some tol =>
    by_cases hinvalid : (!FloatOps.isFinite tol || FloatOps.le tol 0) = true
    · simp only [ExecutionPolicy.tryNew, hinvalid, if_true] at h
      cases h
    · simp only [ExecutionPolicy.tryNew, hinvalid] at h
      have hfinite : FloatOps.isFinite tol = true := by
        by_contra hinfinite
        simp [hinfinite] at hinvalid
      constructor
      · rintro _ ⟨⟩
        exact hfinite
      · exact (Except.ok.inj h).symm

theorem ComputationKey.tryNew_eq_ok {opId : String} {inputs : List ContentHash}
    {params : List (String × String)} {policy : ExecutionPolicy Binary64}
    (h : ComputationKey.tryNew opId inputs params policy = .ok key) :
    key = {
      opId, inputHashes := inputs, params
      policyDeterminismClass := policy.determinismClass
      policyToleranceRole := policy.toleranceRole
      effectiveToleranceBits :=
        if policy.toleranceRole.affectsComputation then
          (policy.requiredTolerance.map FloatOps.toBits).getD 0
        else 0
      rngSeed := policy.rngSeed
      codeVersionHash := policy.codeVersionHash
      maxIterations := policy.maxIterations } := by
  by_cases hblank : opId.toList.all isWhitespace = true
  · simp only [ComputationKey.tryNew, hblank, if_true] at h
    cases h
  by_cases haffects : policy.toleranceRole.affectsComputation = true
  · cases htol : policy.requiredTolerance with
    | none =>
      simp only [ComputationKey.tryNew, hblank, haffects, htol, if_true] at h
      cases h
    | some tol =>
      simp only [ComputationKey.tryNew, hblank, haffects, htol, if_true] at h
      rw [if_pos haffects]
      exact (Except.ok.inj h).symm
  · simp only [ComputationKey.tryNew, hblank, haffects] at h
    rw [if_neg haffects]
    exact (Except.ok.inj h).symm

/-- What the key of an accepted record is made of. -/
theorem migrateLegacyNodeRecord_eq_ok
    (h : migrateLegacyNodeRecord r artifact = .ok (key, obs)) :
    (Binary64.lt .zero r.requiredTolerance = true → r.requiredTolerance.isFinite = true) ∧
      key = {
        opId := r.opId
        inputHashes := r.inputHashes
        params := migratedParams r
        policyDeterminismClass := .toleranceDependentDeterministic
        policyToleranceRole :=
          if Binary64.lt .zero r.requiredTolerance then .stoppingCriterion else .none
        effectiveToleranceBits :=
          if Binary64.lt .zero r.requiredTolerance then r.requiredTolerance.bits else 0
        rngSeed := r.rngSeed
        codeVersionHash := r.codeVersionHash
        maxIterations := none } := by
  unfold migrateLegacyNodeRecord at h
  by_cases hpos : Binary64.lt .zero r.requiredTolerance = true
  · have hops : FloatOps.lt 0 r.requiredTolerance = true := hpos
    simp only [hops, if_true] at h
    obtain ⟨policy, hpolicy, h⟩ := bind_eq_ok h
    obtain ⟨key', hkey, h⟩ := bind_eq_ok h
    obtain ⟨obs', _, h⟩ := bind_eq_ok h
    obtain ⟨hfinite, rfl⟩ := ExecutionPolicy.tryNew_eq_ok hpolicy
    obtain rfl := ComputationKey.tryNew_eq_ok hkey
    cases h
    rw [if_pos hpos, if_pos hpos]
    exact ⟨fun _ => hfinite _ rfl, rfl⟩
  · have hops : ¬ FloatOps.lt 0 r.requiredTolerance = true := hpos
    simp only [hops] at h
    obtain ⟨policy, hpolicy, h⟩ := bind_eq_ok h
    obtain ⟨key', hkey, h⟩ := bind_eq_ok h
    obtain ⟨obs', _, h⟩ := bind_eq_ok h
    obtain ⟨_, rfl⟩ := ExecutionPolicy.tryNew_eq_ok hpolicy
    obtain rfl := ComputationKey.tryNew_eq_ok hkey
    cases h
    rw [if_neg hpos, if_neg hpos]
    exact ⟨fun hpos' => absurd hpos' hpos, rfl⟩

/-- One key comes from two records only when they differ in nothing but
overwritten parameters and tolerances that are not positive. -/
theorem shareMigratedKey_spec (h : ShareMigratedKey r s) :
    r.opId = s.opId ∧ r.inputHashes = s.inputHashes ∧
      (survivors r.params).Perm (survivors s.params) ∧
      r.codeVersionHash = s.codeVersionHash ∧ r.rngSeed = s.rngSeed ∧
      (Binary64.lt .zero r.requiredTolerance = true →
        r.requiredTolerance.eq s.requiredTolerance = true) := by
  obtain ⟨artifact, artifact', key, obs, obs', hr, hs⟩ := h
  obtain ⟨hfinite, hkey⟩ := migrateLegacyNodeRecord_eq_ok hr
  obtain ⟨_, hkey'⟩ := migrateLegacyNodeRecord_eq_ok hs
  rw [hkey] at hkey'
  simp only [ComputationKey.mk.injEq] at hkey'
  obtain ⟨hop, hinputs, hparams, -, hrole, hbits, hseed, hcode, -⟩ := hkey'
  refine ⟨hop, hinputs, perm_survivors_of_toList migrateParam_injective hparams, hcode, hseed, ?_⟩
  intro hpos
  rw [if_pos hpos] at hrole hbits
  split at hrole
  case isTrue hpos' =>
    rw [if_pos hpos'] at hbits
    have heq : r.requiredTolerance = s.requiredTolerance := congrArg Binary64.mk hbits
    rw [← heq]
    exact Binary64.eq_self (Binary64.isNan_of_isFinite (hfinite hpos))
  case isFalse => cases hrole

/-- Records with one key are the same computation exactly when the migration
dropped the same parameters of both, and either kept the tolerance or the
tolerances are equal anyway. -/
theorem migration_distinguishes_iff (r s : NodeRecord Binary64) (h : ShareMigratedKey r s) :
    SameComputation r s ↔
      (overwritten r.params).Perm (overwritten s.params) ∧
        (Binary64.lt .zero r.requiredTolerance = true ∨
          r.requiredTolerance.eq s.requiredTolerance = true) := by
  obtain ⟨hop, hinputs, hsurvivors, hcode, hseed, htolerance⟩ := shareMigratedKey_spec h
  constructor
  · intro hsame
    exact ⟨(perm_iff_overwritten hsurvivors).1 hsame.params, .inr hsame.requiredTolerance⟩
  · rintro ⟨hoverwritten, htol⟩
    exact {
      opId := hop
      inputHashes := hinputs
      params := (perm_iff_overwritten hsurvivors).2 hoverwritten
      codeVersionHash := hcode
      rngSeed := hseed
      requiredTolerance := htol.elim htolerance id }

end

/-- A record of one parameter list and one tolerance. -/
def parameterRecord (params : List Param) (tolerance : Binary64) : NodeRecord Binary64 where
  opId := "solve"
  inputHashes := []
  params := params
  codeVersionHash := toyHash.hashBytes []
  rngSeed := 0
  achievedError := Binary64.zero
  requiredTolerance := tolerance

def parameterKey (params : List (String × String)) (role : ToleranceRole) (bits : UInt64) :
    ComputationKey where
  opId := "solve"
  inputHashes := []
  params := params
  policyDeterminismClass := .toleranceDependentDeterministic
  policyToleranceRole := role
  effectiveToleranceBits := bits
  rngSeed := 0
  codeVersionHash := toyHash.hashBytes []
  maxIterations := none

@[reducible] def noText : Binary64.Text := ⟨fun _ => ""⟩

def exactObservation : OutputObservation Binary64 :=
  ⟨toyHash.hashBytes [], some Binary64.zero, none, none⟩

/-- Two records of one computation: other outputs, and the parameters in another order. -/
def shuffledRecord : NodeRecord Binary64 :=
  { parameterRecord [("n", .int 1), ("m", .int 3), ("n", .int 2)] Binary64.half with
    achievedError := Binary64.half }

theorem migration_distinguishes_shuffled :
    shuffledRecord ≠ parameterRecord [("m", .int 3), ("n", .int 1), ("n", .int 2)] Binary64.half ∧
      SameComputation shuffledRecord
        (parameterRecord [("m", .int 3), ("n", .int 1), ("n", .int 2)] Binary64.half) := by
  constructor
  · intro h
    exact absurd (congrArg NodeRecord.achievedError h) (by decide)
  · apply (@migration_distinguishes_iff noText _ _ ?_).mpr
    · exact ⟨by decide, .inl (by decide)⟩
    · exact ⟨toyHash.hashBytes [], toyHash.hashBytes [],
        parameterKey [("m", "int:3"), ("n", "int:2")] .stoppingCriterion Binary64.half.bits,
        { exactObservation with achievedError := some Binary64.half }, exactObservation,
        by decide +kernel, by decide +kernel⟩

/-- An overwritten parameter leaves no trace, and neither does a NaN tolerance. -/
theorem migration_merges_distinct_records :
    (@ShareMigratedKey noText (parameterRecord [("n", .int 1), ("n", .int 2)] Binary64.half)
        (parameterRecord [("n", .int 2)] Binary64.half) ∧
      ¬ SameComputation (parameterRecord [("n", .int 1), ("n", .int 2)] Binary64.half)
        (parameterRecord [("n", .int 2)] Binary64.half)) ∧
    @ShareMigratedKey noText (parameterRecord [] Binary64.nan) (parameterRecord [] Binary64.zero) ∧
      ¬ SameComputation (parameterRecord [] Binary64.nan) (parameterRecord [] Binary64.zero) := by
  constructor
  · constructor
    · exact ⟨toyHash.hashBytes [], toyHash.hashBytes [],
        parameterKey [("n", "int:2")] .stoppingCriterion Binary64.half.bits,
        exactObservation, exactObservation, by decide +kernel, by decide +kernel⟩
    · intro h
      exact absurd h.params.length_eq (by decide)
  · constructor
    · exact ⟨toyHash.hashBytes [], toyHash.hashBytes [], parameterKey [] .none 0,
        exactObservation, exactObservation, by decide +kernel, by decide +kernel⟩
    · intro h
      exact absurd h.requiredTolerance (by decide)

end FrankenSim.Recompute
