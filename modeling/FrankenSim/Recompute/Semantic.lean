import FrankenSim.Recompute.Record
import Std.Data.TreeMap.Lemmas

/-!
# Semantic computation keys

A computation key binds the operation, its inputs and parameters, and the
required tolerance only when the tolerance role says that it alters the
computation. Legacy node records migrate to a key and an output observation.
-/
namespace FrankenSim.Recompute

open Library

inductive DeterminismClass
  | exactDeterministic
  | toleranceDependentDeterministic
  | nondeterministic
  deriving DecidableEq, Repr

def DeterminismClass.isDeterministic : DeterminismClass → Bool
  | exactDeterministic | toleranceDependentDeterministic => true
  | nondeterministic => false

def DeterminismClass.asStr : DeterminismClass → String
  | exactDeterministic => "exact-deterministic"
  | toleranceDependentDeterministic => "tolerance-dependent-deterministic"
  | nondeterministic => "nondeterministic"

inductive ToleranceRole
  | inputParameter
  | stoppingCriterion
  | queryThreshold
  | none
  deriving DecidableEq, Repr

def ToleranceRole.affectsComputation : ToleranceRole → Bool
  | inputParameter | stoppingCriterion => true
  | queryThreshold | none => false

def ToleranceRole.asStr : ToleranceRole → String
  | inputParameter => "input-parameter"
  | stoppingCriterion => "stopping-criterion"
  | queryThreshold => "query-threshold"
  | none => "none"

inductive SemanticKeyError (F : Type*)
  | emptyOpId
  | invalidTolerance (value : F) (reason : String)
  | missingTolerance (role : ToleranceRole)
  | invalidAchievedError (value : F) (reason : String)
  | invalidTiming (value : F)
  deriving DecidableEq, Repr

structure ExecutionPolicy (F : Type*) where
  determinismClass : DeterminismClass
  toleranceRole : ToleranceRole
  requiredTolerance : Option F
  rngSeed : UInt64
  codeVersionHash : ContentHash
  maxIterations : Option UInt64
  deriving DecidableEq, Repr

/-- The canonical key of a unit of computation. The parameter map is kept as
its entries in key order. -/
structure ComputationKey where
  opId : String
  inputHashes : List ContentHash
  params : List (String × String)
  policyDeterminismClass : DeterminismClass
  policyToleranceRole : ToleranceRole
  effectiveToleranceBits : UInt64
  rngSeed : UInt64
  codeVersionHash : ContentHash
  maxIterations : Option UInt64
  deriving DecidableEq, Repr

structure OutputObservation (F : Type*) where
  artifactHash : ContentHash
  achievedError : Option F
  wallTimeS : Option F
  peakMemoryBytes : Option UInt64
  deriving DecidableEq, Repr

structure StoredSemanticComputation (F : Type*) where
  key : ComputationKey
  observation : OutputObservation F
  pins : List PinReason
  seq : ℕ
  deriving DecidableEq, Repr

def COMPUTATION_KEY_DOMAIN : String := "org.frankensim.fs-recompute.computation-key.v1"

def COMPUTATION_KEY_VERSION : UInt64 := 2

def ComputationKey.encoding (key : ComputationKey) : List UInt8 :=
  let bytes := pushString [] COMPUTATION_KEY_DOMAIN
  let bytes := pushU64 bytes COMPUTATION_KEY_VERSION
  let bytes := pushString bytes key.opId
  let bytes := pushU64 bytes (UInt64.ofNat key.inputHashes.length)
  let bytes := key.inputHashes.foldl (fun bytes h => pushBytes bytes h.bytes) bytes
  let bytes := pushU64 bytes (UInt64.ofNat key.params.length)
  let bytes := key.params.foldl (fun bytes p => pushString (pushString bytes p.1) p.2) bytes
  let bytes := pushString bytes key.policyDeterminismClass.asStr
  let bytes := pushString bytes key.policyToleranceRole.asStr
  let bytes := pushU64 bytes key.effectiveToleranceBits
  let bytes := pushU64 bytes key.rngSeed
  let bytes := pushBytes bytes key.codeVersionHash.bytes
  match key.maxIterations with
  | none => pushU64 bytes 0
  | some iterations => pushU64 (pushU64 bytes 1) iterations

def ComputationKey.contentHash [HashBytes] (key : ComputationKey) : ContentHash :=
  hashBytes key.encoding

/-- The characters that `str::trim` removes. -/
def isWhitespace (c : Char) : Bool :=
  let n := c.toNat
  (9 ≤ n && n ≤ 13) || n = 32 || n = 0x85 || n = 0xA0 || n = 0x1680 ||
    (0x2000 ≤ n && n ≤ 0x200A) || n = 0x2028 || n = 0x2029 || n = 0x202F || n = 0x205F ||
    n = 0x3000

/-- `format!("{bits:016X}")`. -/
def upperHex16 (bits : UInt64) : String :=
  let digits := (Nat.toDigits 16 bits.toNat).map Char.toUpper
  String.ofList (List.replicate (16 - digits.length) '0' ++ digits)

def migrateParam : ParamValue → String
  | .f64 bits => "f64:" ++ upperHex16 bits
  | .int i => "int:" ++ toString i.toInt
  | .str s => "str:" ++ s

section

variable {F : Type} [FloatOps F]

def SemanticKeyError.display : SemanticKeyError F → String
  | emptyOpId => "operation identifier must not be empty"
  | invalidTolerance value reason =>
    "invalid required tolerance " ++ FloatOps.display value ++ ": " ++ reason
  | missingTolerance role =>
    "tolerance role `" ++ role.asStr ++ "` requires an explicit tolerance value"
  | invalidAchievedError value reason =>
    "invalid achieved error " ++ FloatOps.display value ++ ": " ++ reason
  | invalidTiming value =>
    "invalid wall timing " ++ FloatOps.display value ++ ": must be finite and non-negative"

def ExecutionPolicy.tryNew (determinismClass : DeterminismClass) (toleranceRole : ToleranceRole)
    (requiredTolerance : Option F) (rngSeed : UInt64) (codeVersionHash : ContentHash)
    (maxIterations : Option UInt64) : Except (SemanticKeyError F) (ExecutionPolicy F) := do
  match requiredTolerance with
  | some tol =>
    if !FloatOps.isFinite tol || FloatOps.le tol 0 then
      throw (.invalidTolerance tol "required tolerance must be finite and strictly positive")
  | none =>
    if toleranceRole.affectsComputation then
      throw (.missingTolerance toleranceRole)
  return { determinismClass, toleranceRole, requiredTolerance, rngSeed, codeVersionHash,
           maxIterations }

def ComputationKey.tryNew (opId : String) (inputHashes : List ContentHash)
    (params : List (String × String)) (policy : ExecutionPolicy F) :
    Except (SemanticKeyError F) ComputationKey := do
  if opId.toList.all isWhitespace then
    throw .emptyOpId
  let effectiveToleranceBits ←
    if policy.toleranceRole.affectsComputation then
      match policy.requiredTolerance with
      | some tol => pure (FloatOps.toBits tol)
      | none => throw (.missingTolerance policy.toleranceRole)
    else pure 0
  return { opId, inputHashes, params, policyDeterminismClass := policy.determinismClass,
           policyToleranceRole := policy.toleranceRole, effectiveToleranceBits,
           rngSeed := policy.rngSeed, codeVersionHash := policy.codeVersionHash,
           maxIterations := policy.maxIterations }

/-- An error or a timing has to be finite and not negative. -/
def isInvalidMagnitude (v : F) : Bool := !FloatOps.isFinite v || FloatOps.lt v 0

def OutputObservation.tryNew (artifactHash : ContentHash) (achievedError wallTimeS : Option F)
    (peakMemoryBytes : Option UInt64) : Except (SemanticKeyError F) (OutputObservation F) := do
  if let some err := achievedError then
    if isInvalidMagnitude err then
      throw (.invalidAchievedError err "achieved error must be finite and non-negative")
  if let some wall := wallTimeS then
    if isInvalidMagnitude wall then
      throw (.invalidTiming wall)
  return { artifactHash, achievedError, wallTimeS, peakMemoryBytes }

/-- The tolerance is assumed to be a stopping criterion when it is positive. -/
def migrateLegacyNodeRecord (record : NodeRecord F) (artifactHash : ContentHash) :
    Except (SemanticKeyError F) (ComputationKey × OutputObservation F) := do
  let params : Std.TreeMap String String :=
    record.params.foldl (fun m p => m.insert p.1 (migrateParam p.2)) ∅
  let (toleranceRole, requiredTolerance) :=
    if FloatOps.lt 0 record.requiredTolerance then
      (ToleranceRole.stoppingCriterion, some record.requiredTolerance)
    else (ToleranceRole.none, none)
  let policy ← ExecutionPolicy.tryNew .toleranceDependentDeterministic toleranceRole
    requiredTolerance record.rngSeed record.codeVersionHash none
  let key ← ComputationKey.tryNew record.opId record.inputHashes params.toList policy
  let obs ← OutputObservation.tryNew artifactHash (some record.achievedError) none none
  return (key, obs)

end

end FrankenSim.Recompute
