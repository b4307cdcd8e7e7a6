import FrankenSim.Recompute.Semantic

/-!
# The content-addressed store

Legacy nodes and semantic entries live in two maps tied together only by the
insertion counter they share. Every operation that takes the store by mutable
reference returns the store it leaves behind next to its result.
-/
namespace FrankenSim.Recompute

open Library

def U64_MAX : ℕ := 2 ^ 64 - 1

def U32_MAX : ℕ := 2 ^ 32 - 1

inductive PutOutcome
  | inserted (hash : ContentHash)
  | deduped (hash : ContentHash)
  deriving DecidableEq, Repr

inductive StoreError
  | determinismViolation (node : ContentHash) (expected got : String)
  | unknownNode (node : ContentHash)
  | cacheFullOfPins (pinned capacity : ℕ)
  | invalidErrorBudget (achievedBits requiredBits : UInt64)
  | invalidSlackBurn (node : ContentHash) (amountBits availableBits : UInt64)
  | stalePlan (plannedRevision currentRevision : ℕ) (plannedState currentState : ContentHash)
  | invalidObservation (reason : String)
  | semanticMigration (node : ContentHash) (reason : String)
  deriving DecidableEq, Repr

/-- Whether a stored artifact is good enough for a tolerance. -/
inductive SkipDecision (F : Type)
  | hit (node : ContentHash) (slack : F)
  | toleranceTightened (deficit : F)
  | invalidTolerance (toleranceBits : UInt64)
  | miss
  deriving DecidableEq, Repr

structure Store (F : Type) where
  nodes : Std.TreeMap ContentHash (StoredNode F)
  semanticNodes : Std.TreeMap ContentHash (StoredSemanticComputation F)
  seq : ℕ
  revision : ℕ

/-- A result and the store left behind. -/
abbrev StoreM (F α : Type) := Except StoreError α × Store F

namespace Store

variable {F : Type}

def new (F : Type) : Store F := ⟨∅, ∅, 0, 0⟩

def get (self : Store F) (node : ContentHash) : Option (StoredNode F) := self.nodes[node]?

def bumpRevision (self : Store F) : Store F :=
  { self with revision := min (self.revision + 1) U64_MAX }

/-- The eviction path of one node: its semantic twin goes with it. -/
def removeByKey (self : Store F) (k : ContentHash) : Store F :=
  match self.nodes[k]? with
  | none => self
  | some removed =>
    { self with
      nodes := self.nodes.erase k
      semanticNodes := self.semanticNodes.filter fun _ v => v.seq != removed.seq }.bumpRevision

/-- The unpinned nodes with their insertion order, oldest first. -/
def unpinnedBySeq (self : Store F) : List (ContentHash × ℕ) :=
  ((self.nodes.toList.filter fun e => e.2.pins.isEmpty).map fun e => (e.1, e.2.seq)).insertionSort
    fun a b => a.2 ≤ b.2

/-- The count is a `u32`; counting past its range panics. -/
def countU32 (n : ℕ) : Option ℕ := if n ≤ U32_MAX then some n else none

def evictUnpinned (self : Store F) (keep : ℕ) : Option (ℕ × Store F) :=
  let unpinned := self.unpinnedBySeq
  let excess := unpinned.length - keep
  let victims := unpinned.take excess
  let nodes := victims.foldl (fun nodes v => nodes.erase v.1) self.nodes
  let evictedSeqs := victims.map Prod.snd
  let evicted := { self with nodes }
  (countU32 victims.length).map fun count =>
    if evictedSeqs.isEmpty then (count, evicted)
    else
      (count, { evicted with
        semanticNodes := self.semanticNodes.filter fun _ v =>
          !evictedSeqs.contains v.seq }.bumpRevision)

def pin (self : Store F) (node : ContentHash) (reason : PinReason) : StoreM F Unit :=
  match self.nodes[node]? with
  | none => (.error (.unknownNode node), self)
  | some entry =>
    if reason ∈ entry.pins then (.ok (), self)
    else
      let pins := (entry.pins ++ [reason]).insertionSort PinReason.le
      (.ok (), { self with nodes := self.nodes.insert node { entry with pins } }.bumpRevision)

section

variable [FloatOps F] [HashBytes]

def fingerprintEncoding (self : Store F) : List UInt8 :=
  let buf := utf8 "fs-recompute-store-state-v1" ++ [0]
  let buf := pushU64 buf (UInt64.ofNat self.nodes.size)
  self.nodes.toList.foldl (fun buf e =>
    pushU64 (buf ++ e.1.bytes ++ e.2.artifactHash.bytes) (FloatOps.toBits e.2.burned)) buf

def stateFingerprint (self : Store F) : ContentHash := hashBytes self.fingerprintEncoding

def put (self : Store F) (record : NodeRecord F) (artifactBytes : List UInt8) :
    StoreM F PutOutcome :=
  if isInvalidMagnitude record.achievedError || isInvalidMagnitude record.requiredTolerance then
    (.error (.invalidErrorBudget (FloatOps.toBits record.achievedError)
      (FloatOps.toBits record.requiredTolerance)), self)
  else
    let nodeHash := record.contentHash
    let artifactHash := artifactContentHash artifactBytes
    match self.nodes[nodeHash]? with
    | some existing =>
      if existing.artifactHash = artifactHash then (.ok (.deduped nodeHash), self)
      else
        (.error (.determinismViolation nodeHash existing.artifactHash.toHex
          artifactHash.toHex), self)
    | none =>
      let node := { record, artifactHash, pins := [], seq := self.seq, burned := 0 }
      (.ok (.inserted nodeHash), { self with
        nodes := self.nodes.insert nodeHash node
        seq := self.seq + 1 }.bumpRevision)

/-- The identity for skip purposes leaves the two error fields out. -/
def normalized (record : NodeRecord F) : NodeRecord F :=
  { record with achievedError := 0, requiredTolerance := 0 }

/-- One step of the scan for the smallest effective error. -/
def considerSkip (probeHash : ContentHash) (best : Option (StoredNode F × F))
    (stored : StoredNode F) : Option (StoredNode F × F) :=
  if (normalized stored.record).contentHash = probeHash then
    let effectiveError := stored.record.achievedError + stored.burned
    match best with
    | none => some (stored, effectiveError)
    | some (_, current) =>
      if FloatOps.lt effectiveError current then some (stored, effectiveError) else best
  else best

def canSkip (self : Store F) (record : NodeRecord F) (newTolerance : F) : SkipDecision F :=
  if isInvalidMagnitude newTolerance then .invalidTolerance (FloatOps.toBits newTolerance)
  else
    let probeHash := (normalized record).contentHash
    match (self.nodes.toList.map Prod.snd).foldl (considerSkip probeHash) none with
    | none => .miss
    | some (stored, effectiveError) =>
      let slack := newTolerance - effectiveError
      if FloatOps.le 0 slack then .hit stored.record.contentHash slack
      else .toleranceTightened (0 - slack)

/-- The refusal of an observation built without its constructor. -/
def observationRefusal (observation : OutputObservation F) : Option StoreError :=
  let refuse := fun (field : String) (v : Option F) =>
    v.bind fun v =>
      if isInvalidMagnitude v then
        some (StoreError.invalidObservation
          (field ++ " must be finite and non-negative; got " ++ FloatOps.display v))
      else none
  (refuse "achieved_error" observation.achievedError).or
    (refuse "wall_time_s" observation.wallTimeS)

def putComputation (self : Store F) (key : ComputationKey) (observation : OutputObservation F)
    (artifactBytes : List UInt8) : StoreM F PutOutcome :=
  match observationRefusal observation with
  | some refusal => (.error refusal, self)
  | none =>
    let keyHash := key.contentHash
    let artifactHash := artifactContentHash artifactBytes
    let existing :=
      if key.policyDeterminismClass.isDeterministic then self.semanticNodes[keyHash]? else none
    match existing with
    | some existing =>
      if existing.observation.artifactHash = artifactHash then (.ok (.deduped keyHash), self)
      else
        (.error (.determinismViolation keyHash existing.observation.artifactHash.toHex
          artifactHash.toHex), self)
    | none =>
      let entry :=
        { key, observation := { observation with artifactHash }, pins := [], seq := self.seq }
      (.ok (.inserted keyHash), { self with
        semanticNodes := self.semanticNodes.insert keyHash entry
        seq := self.seq + 1 }.bumpRevision)

/-- The first pass of the migration: every stored node, or the first refusal. -/
def migrations (self : Store F) : Except StoreError (List (StoredSemanticComputation F)) :=
  (self.nodes.toList.map Prod.snd).mapM fun node =>
    match migrateLegacyNodeRecord node.record node.artifactHash with
    | .ok (key, observation) => .ok { key, observation, pins := node.pins, seq := node.seq }
    | .error error => .error (.semanticMigration node.record.contentHash error.display)

/-- The second pass: an entry is inserted unless its key is already present. -/
def insertAbsent (acc : Std.TreeMap ContentHash (StoredSemanticComputation F) × ℕ)
    (entry : StoredSemanticComputation F) :
    Std.TreeMap ContentHash (StoredSemanticComputation F) × ℕ :=
  let keyHash := entry.key.contentHash
  if acc.1.contains keyHash then acc else (acc.1.insert keyHash entry, acc.2 + 1)

def migrateAllLegacyNodes (self : Store F) : StoreM F ℕ :=
  match self.migrations with
  | .error error => (.error error, self)
  | .ok migrations =>
    let (semanticNodes, count) := migrations.foldl insertAbsent (self.semanticNodes, 0)
    let migrated := { self with semanticNodes }
    (.ok count, if 0 < count then migrated.bumpRevision else migrated)

/-- The first pass over the burns: each entry is checked and added to the total
of its node. -/
def aggregateBurn (self : Store F) (aggregated : Std.TreeMap ContentHash F)
    (burn : ContentHash × F) : Except StoreError (Std.TreeMap ContentHash F) :=
  match self.nodes[burn.1]? with
  | none => .error (.unknownNode burn.1)
  | some entry =>
    let refuse := fun amount : F => Except.error (StoreError.invalidSlackBurn burn.1
      (FloatOps.toBits amount) (FloatOps.toBits entry.effectiveSlack))
    if isInvalidMagnitude burn.2 then refuse burn.2
    else
      let total := aggregated.getD burn.1 0 + burn.2
      if FloatOps.isFinite total then .ok (aggregated.insert burn.1 total) else refuse total

/-- The second pass: each total has to fit strictly inside the available slack. -/
def checkTotal (self : Store F) (total : ContentHash × F) : Except StoreError Unit :=
  match self.nodes[total.1]? with
  | none => .error (.unknownNode total.1)
  | some entry =>
    if FloatOps.le entry.effectiveSlack total.2 then
      .error (.invalidSlackBurn total.1 (FloatOps.toBits total.2)
        (FloatOps.toBits entry.effectiveSlack))
    else .ok ()

def validateBurns (self : Store F) (plannedRevision : ℕ) (plannedState : ContentHash)
    (burns : List (ContentHash × F)) : Except StoreError (Std.TreeMap ContentHash F) := do
  let currentState := self.stateFingerprint
  if self.revision ≠ plannedRevision ∨ currentState ≠ plannedState then
    throw (.stalePlan plannedRevision self.revision plannedState currentState)
  let aggregated ← burns.foldlM self.aggregateBurn ∅
  aggregated.toList.forM self.checkTotal
  return aggregated

/-- The third pass: the totals are added to the burned slack. -/
def burnTotals (nodes : Std.TreeMap ContentHash (StoredNode F)) (totals : List (ContentHash × F)) :
    Std.TreeMap ContentHash (StoredNode F) :=
  totals.foldl (fun nodes t =>
    nodes.modify t.1 fun node => { node with burned := node.burned + t.2 }) nodes

def commitBurns (self : Store F) (plannedRevision : ℕ) (plannedState : ContentHash)
    (burns : List (ContentHash × F)) : StoreM F Unit :=
  match self.validateBurns plannedRevision plannedState burns with
  | .error error => (.error error, self)
  | .ok aggregated =>
    (.ok (), { self with nodes := burnTotals self.nodes aggregated.toList }.bumpRevision)

def burnSlack (self : Store F) (node : ContentHash) (amount : F) : StoreM F Unit :=
  self.commitBurns self.revision self.stateFingerprint [(node, amount)]

end

end Store

end FrankenSim.Recompute
