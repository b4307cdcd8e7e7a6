import FrankenSim.Evidence.Identity
import FrankenSim.Library.Binary64
import FrankenSim.Library.SortedMap
import Mathlib.Data.String.Basic

/-!
# Colours of evidence

A colour says how strong a claim is: verified by an interval, validated inside a regime,
or estimated with a dispersion. Composition first turns a malformed operand into an
estimate of infinite dispersion.
-/
namespace FrankenSim.Evidence

open Library Recompute

/-- What the regime of a colour needs of the quantities that type its axes. -/
class QuantityOps (Q : Type*) where
  decEq : DecidableEq Q
  canonicalBytes : Q → List UInt8
  refuses : Q → Binary64 → Bool

instance {Q : Type*} [QuantityOps Q] : DecidableEq Q := QuantityOps.decEq

/-- A box of named parameters; missing parameters are not constrained. -/
structure ValidityDomain (Q : Type*) where
  bounds : SortedMap String (Binary64 × Binary64)
  axisQuantities : SortedMap String Q

inductive Color (Q : Type*)
  | verified (lo hi : Binary64)
  | validated (regime : ValidityDomain Q) (dataset : String)
  | estimated (estimator : String) (dispersion : Binary64)

inductive ColorPayloadError
  | invalidIdentity (field value reason : String)
  | invalidVerifiedInterval (reason : String)
  | invalidValidatedRegime (axis reason : String)
  | invalidEstimatedDispersion (reason : String)
  deriving DecidableEq

inductive ColorRank
  | estimated
  | validated
  | verified
  deriving DecidableEq

namespace ColorRank

def strength : ColorRank → ℕ
  | estimated => 0
  | validated => 1
  | verified => 2

theorem strength_injective : Function.Injective strength := by
  intro a b h
  cases a <;> cases b <;> first | rfl | cases h

instance : LinearOrder ColorRank := LinearOrder.lift' strength strength_injective

end ColorRank

inductive IntervalOp
  | add
  | mul
  | hull
  deriving DecidableEq

inductive NumericalKind
  | exact
  | enclosure
  | estimate
  | noClaim
  deriving DecidableEq

structure NumericalCertificate where
  kind : NumericalKind
  lo : Binary64
  hi : Binary64

/-- A validated colour that left its regime. -/
structure Demotion where
  dataset : String
  axis : String
  value : Binary64

/-- The half-width of an interval relative to a reference magnitude. -/
def NumericalCertificate.relHalfWidth (self : NumericalCertificate) (reference : Binary64) :
    Binary64 :=
  if self.kind = .noClaim || !reference.isFinite || self.lo.isNan || self.hi.isNan ||
      Binary64.lt self.hi self.lo then
    .infinity
  else
    let half := Binary64.mul .half (Binary64.sub self.hi self.lo)
    let relative := Binary64.div half (Binary64.max reference.abs .minPositive)
    if half.isFinite && Binary64.le .zero half && relative.isFinite then relative else .infinity

namespace ValidityDomain

variable {Q : Type*}

def hasTypedAxes (self : ValidityDomain Q) : Bool := !self.axisQuantities.isEmpty

/-- The bounds that both sides keep on one axis. -/
def meetBounds (lo2 hi2 : Binary64) : Option (Binary64 × Binary64) → Binary64 × Binary64
  | some (lo, hi) =>
    if lo.isNan || hi.isNan || lo2.isNan || hi2.isNan then (.nan, .nan)
    else (Binary64.max lo lo2, Binary64.min hi hi2)
  | none => (lo2, hi2)

variable [QuantityOps Q]

/-- One axis of the other domain joins an intersection. -/
def intersectAxis (self other : ValidityDomain Q) (out : ValidityDomain Q)
    (axis : String × (Binary64 × Binary64)) : ValidityDomain Q :=
  let (k, lo2, hi2) := axis
  if self.bounds.contains k && self.axisQuantities.get? k ≠ other.axisQuantities.get? k then
    -- no convention wins a conflict
    { bounds := out.bounds.insert k (.one, .zero), axisQuantities := out.axisQuantities.erase k }
  else
    { bounds := out.bounds.insert k (meetBounds lo2 hi2 (out.bounds.get? k))
      axisQuantities :=
        match other.axisQuantities.get? k with
        | some quantity => out.axisQuantities.insert k quantity
        | none => out.axisQuantities }

def intersect (self other : ValidityDomain Q) : ValidityDomain Q :=
  other.bounds.entries.foldl (intersectAxis self other) self

/-- Some axis has an empty or unusable interval. -/
def isEmpty (self : ValidityDomain Q) : Bool :=
  self.bounds.entries.any fun (axis, lo, hi) =>
    !lo.isFinite || !hi.isFinite || Binary64.lt hi lo ||
      (match self.axisQuantities.get? axis with
      | some quantity => [lo, hi].any (QuantityOps.refuses quantity)
      | none => false)

end ValidityDomain

variable {Q : Type*}

def validateVerified (lo hi : Binary64) : Except ColorPayloadError Unit :=
  if lo.isNan || hi.isNan then .error (.invalidVerifiedInterval "bounds contain NaN")
  else if Binary64.lt hi lo then
    .error (.invalidVerifiedInterval "lower bound exceeds upper bound")
  else if lo.isInfinite && lo.bits = hi.bits then
    .error (.invalidVerifiedInterval
      "degenerate point interval at infinity encloses no real value")
  else .ok ()

def validateAxis (axis : String × (Binary64 × Binary64)) : Except ColorPayloadError Unit :=
  let (name, lo, hi) := axis
  match colorIdentityReason name with
  | some reason => .error (.invalidIdentity "axis" name reason)
  | none =>
    if !lo.isFinite || !hi.isFinite then
      .error (.invalidValidatedRegime name "bounds must be finite")
    else if Binary64.lt hi lo then
      .error (.invalidValidatedRegime name "lower bound exceeds upper bound")
    else .ok ()

def validateValidated (regime : ValidityDomain Q) (dataset : String) :
    Except ColorPayloadError Unit :=
  if regime.hasTypedAxes then
    .error (.invalidValidatedRegime ""
      "typed axes are not representable in the validated color v2 profile")
  else
    match colorIdentityReason dataset with
    | some reason => .error (.invalidIdentity "dataset" dataset reason)
    | none =>
      if regime.bounds.isEmpty then
        .error (.invalidValidatedRegime "" "at least one bounded axis is required")
      else regime.bounds.entries.forM validateAxis

def validateEstimated (estimator : String) (dispersion : Binary64) :
    Except ColorPayloadError Unit :=
  match colorIdentityReason estimator with
  | some reason => .error (.invalidIdentity "estimator" estimator reason)
  | none =>
    if dispersion.isNan || Binary64.lt dispersion .zero then
      .error (.invalidEstimatedDispersion "value is NaN or negative")
    else .ok ()

/-- The structural invariant of one colour payload. -/
def validateColorPayload : Color Q → Except ColorPayloadError Unit
  | .verified lo hi => validateVerified lo hi
  | .validated regime dataset => validateValidated regime dataset
  | .estimated estimator dispersion => validateEstimated estimator dispersion

def Color.rank : Color Q → ColorRank
  | .verified _ _ => .verified
  | .validated _ _ => .validated
  | .estimated _ _ => .estimated

def ColorPayloadError.label : ColorPayloadError → String
  | invalidIdentity _ _ _ => "invalid-color-identity"
  | invalidVerifiedInterval _ => "invalid-verified-interval"
  | invalidValidatedRegime _ _ => "invalid-validity-regime"
  | invalidEstimatedDispersion _ => "invalid-estimated-dispersion"

section Composition

variable [HashBytes] [HashDomain] [QuantityOps Q]

def floatBytes (x : Binary64) : List UInt8 := leBytes 8 x.bits.toNat

def identityHash (value : String) : List UInt8 :=
  (hashDomain COMPOSED_IDENTITY_DOMAIN (utf8 value)).bytes

/-- The bytes of a malformed colour that its identity digests. -/
def malformedPayload : Color Q → List UInt8
  | .verified lo hi => [0] ++ floatBytes lo ++ floatBytes hi
  | .validated regime dataset =>
    [1] ++ identityHash dataset ++ leBytes 8 regime.bounds.entries.length ++
      (regime.bounds.entries.flatMap fun (axis, lo, hi) =>
        identityHash axis ++ floatBytes lo ++ floatBytes hi) ++
      if regime.hasTypedAxes then
        utf8 "typed-axis-v3" ++
          regime.axisQuantities.entries.flatMap fun (axis, quantity) =>
            leBytes 8 axis.utf8ByteSize ++ utf8 axis ++ QuantityOps.canonicalBytes quantity
      else []
  | .estimated estimator dispersion => [2] ++ identityHash estimator ++ floatBytes dispersion

def compactMalformedColorIdentity (label : String) (color : Color Q) : String :=
  let payloadHash := hashBytes (identityHash label ++ malformedPayload color)
  DERIVED_IDENTITY_PREFIX ++ label ++ ":" ++
    (hashDomain COMPOSED_IDENTITY_DOMAIN payloadHash.bytes).toHex

def normalizeCompositionInput (color : Color Q) : Color Q :=
  match validateColorPayload color with
  | .ok () => color
  | .error error => .estimated (compactMalformedColorIdentity error.label color) .infinity

/-- The relative half-width that an interval adds to a dispersion. -/
def intervalDispersion (lo hi : Binary64) : Binary64 :=
  NumericalCertificate.relHalfWidth ⟨.enclosure, lo, hi⟩
    (Binary64.add (Binary64.div lo .two) (Binary64.div hi .two))

/-- One step outward at both ends; the whole line when an end is NaN. -/
def outwardRound (lo hi : Binary64) : Binary64 × Binary64 :=
  if lo.isNan || hi.isNan then (.negInfinity, .infinity) else (lo.nextDown, hi.nextUp)

def composeIntervals (a0 a1 b0 b1 : Binary64) : IntervalOp → Binary64 × Binary64
  | .add => outwardRound (Binary64.add a0 b0) (Binary64.add a1 b1)
  | .mul =>
    let c := [Binary64.mul a0 b0, Binary64.mul a0 b1, Binary64.mul a1 b0, Binary64.mul a1 b1]
    if c.any Binary64.isNan then (.negInfinity, .infinity)
    else outwardRound (c.foldl Binary64.min .infinity) (c.foldl Binary64.max .negInfinity)
  | .hull => (Binary64.min a0 b0, Binary64.max a1 b1)

def intersectDomains (a b : ValidityDomain Q) : ValidityDomain Q := a.intersect b

/-- An estimate absorbs the other operand at its own width. -/
def composeEstimated (estimator : String) (dispersion : Binary64) (other : Color Q) : Color Q :=
  let (otherDisp, composedIdentity) :=
    match other with
    | .estimated e2 v => (v, composedEstimatorIdentity estimator e2)
    | .verified lo hi => (intervalDispersion lo hi, verifiedEstimatorIdentity estimator)
    | .validated _ dataset => (.infinity, validatedEstimatorIdentity estimator dataset)
  .estimated composedIdentity (Binary64.add dispersion otherDisp)

/-- Composition of operands that are well formed. -/
def composeNormalized (a b : Color Q) (op : IntervalOp) : Color Q :=
  match a, b with
  | .verified a0 a1, .verified b0 b1 =>
    let (lo, hi) := composeIntervals a0 a1 b0 b1 op
    .verified lo hi
  | .validated regime dataset, .verified _ _ | .verified _ _, .validated regime dataset =>
    .validated regime (verifiedDatasetIdentity dataset)
  | .validated r1 d1, .validated r2 d2 =>
    let regime := intersectDomains r1 r2
    if regime.isEmpty then .estimated (disjointRegimeIdentity d1 d2) .infinity
    else .validated regime (composedDatasetIdentity d1 d2)
  | .estimated estimator dispersion, other | other, .estimated estimator dispersion =>
    composeEstimated estimator dispersion other

/-- The conservative composition of two colours. -/
def compose (a b : Color Q) (op : IntervalOp) : Color Q :=
  composeNormalized (normalizeCompositionInput a) (normalizeCompositionInput b) op

end Composition

section Regimes

/-- The state leaves one axis of a regime. -/
def axisDemotion (regime : ValidityDomain Q) (dataset : String)
    (state : SortedMap String Binary64) (axis : String × (Binary64 × Binary64)) :
    Option Demotion :=
  let (name, lo, hi) := axis
  if regime.axisQuantities.contains name then some ⟨dataset, name, .nan⟩
  else
    match state.get? name with
    | none => some ⟨dataset, name, .nan⟩
    | some v =>
      if !lo.isFinite || !hi.isFinite || Binary64.lt hi lo || !v.isFinite || Binary64.lt v lo ||
          Binary64.lt hi v then
        some ⟨dataset, name, v⟩
      else none

/-- Why a validated colour exits its regime, if it does. -/
def regimeDemotion (color : Color Q) (state : SortedMap String Binary64) : Option Demotion :=
  match color with
  | .validated regime dataset =>
    if regime.bounds.isEmpty then some ⟨dataset, "<undeclared-regime>", .nan⟩
    else regime.bounds.entries.findSome? (axisDemotion regime dataset state)
  | _ => none

def checkRegime [HashDomain] (color : Color Q) (state : SortedMap String Binary64) :
    Color Q × Option Demotion :=
  match regimeDemotion color state with
  | none => (color, none)
  | some reason =>
    (.estimated (demotionEstimatorIdentity reason.dataset reason.axis) .infinity, some reason)

end Regimes

end FrankenSim.Evidence
