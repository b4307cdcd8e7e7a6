import FrankenSim.Recompute.Invalidate
import FrankenSim.Library.Runs

/-!
# The operator-facing surface

The API wraps a store with its sensitivity edges and the cost and hit telemetry
that orders its capacity evictions. The action type collects every operation
that can change the store, so a run of the API is any sequence of them.
-/
namespace FrankenSim.Recompute

open Library

structure RecomputeApi (F : Type) where
  store : Store F
  edges : List (Edge F)
  costs : Std.TreeMap ContentHash F
  hits : Std.TreeMap ContentHash ℕ
  plansSeen : ℕ
  defaultCost : F

structure PerturbPlan (F : Type) where
  inner : InvalidationPlan F
  estimatedCost : F
  hashMemoCost : F
  deriving DecidableEq, Repr

namespace RecomputeApi

variable {F : Type}

def new (store : Store F) (edges : List (Edge F)) (defaultCost : F) : RecomputeApi F :=
  ⟨store, edges, ∅, ∅, 0, defaultCost⟩

def recordCost (api : RecomputeApi F) (node : ContentHash) (cost : F) : RecomputeApi F :=
  { api with costs := api.costs.insert node cost }

def costOf (api : RecomputeApi F) (node : ContentHash) : F :=
  api.costs.getD node api.defaultCost

/-- Victims leave one after the other, each with its semantic twin. -/
def removeAll (store : Store F) (victims : List ContentHash) : Store F :=
  victims.foldl Store.removeByKey store

def pinnedCount (api : RecomputeApi F) : ℕ :=
  api.store.nodes.toList.countP fun e => !e.2.pins.isEmpty

section

variable [FloatOps F]

/-- The expected value of keeping a node: its recompute cost times the fraction
of plans that hit it. -/
def score (api : RecomputeApi F) (k : ContentHash) : F :=
  api.costs.getD k api.defaultCost *
    (FloatOps.ofNat (api.hits.getD k 0) / FloatOps.ofNat (max api.plansSeen 1))

/-- Lowest score first, oldest first among equals. -/
def scoreLe (a b : ContentHash × F × ℕ) : Prop :=
  ((FloatOps.totalCmp a.2.1 b.2.1).then (compare a.2.2 b.2.2)).isLE = true

instance : DecidableRel (scoreLe (F := F)) := fun _ _ => inferInstanceAs (Decidable (_ = true))

def scored (api : RecomputeApi F) : List (ContentHash × F × ℕ) :=
  ((api.store.nodes.toList.filter fun e => e.2.pins.isEmpty).map fun e =>
    (e.1, api.score e.1, e.2.seq)).insertionSort scoreLe

def ensureCapacity (api : RecomputeApi F) (maxTotal : ℕ) :
    Option (Except StoreError ℕ × RecomputeApi F) :=
  let pinned := api.pinnedCount
  if maxTotal < pinned then some (.error (.cacheFullOfPins pinned maxTotal), api)
  else
    let keepUnpinned := maxTotal - pinned
    let scored := api.scored
    let excess := scored.length - keepUnpinned
    let victims := (scored.take excess).map Prod.fst
    (Store.countU32 victims.length).map fun count =>
      (.ok count, { api with store := removeAll api.store victims })

variable [HashBytes]

def perturb (api : RecomputeApi F) (node : ContentHash) (delta : F) :
    Except InvalidateError (PerturbPlan F) := do
  let inner ← plan api.store api.edges [(node, delta)]
  let recomputed := inner.verdicts.filter fun v => v.2 matches .recompute _ _
  return {
    inner
    estimatedCost := recomputed.foldl (fun cost v => cost + api.costOf v.1) 0
    hashMemoCost := inner.verdicts.foldl (fun cost v => cost + api.costOf v.1) 0 }

def commit (api : RecomputeApi F) (p : PerturbPlan F) :
    Except StoreError Unit × RecomputeApi F :=
  match applyPlan api.store p.inner with
  | (.error error, store) => (.error error, { api with store })
  | (.ok (), store) =>
    let skipped := p.inner.verdicts.filter fun v => v.2 matches .skip _ _
    let hits := skipped.foldl (fun hits v => hits.insert v.1 (hits.getD v.1 0 + 1)) api.hits
    (.ok (), { api with store, hits, plansSeen := api.plansSeen + 1 })

end

end RecomputeApi

/-- The operations that can change the API or its store. -/
inductive Action (F : Type)
  | put (record : NodeRecord F) (artifactBytes : List UInt8)
  | putComputation (key : ComputationKey) (observation : OutputObservation F)
      (artifactBytes : List UInt8)
  | pin (node : ContentHash) (reason : PinReason)
  | migrateAllLegacyNodes
  | evictUnpinned (keep : ℕ)
  | ensureCapacity (maxTotal : ℕ)
  | burnSlack (node : ContentHash) (amount : F)
  | commitBurns (plannedRevision : ℕ) (plannedState : ContentHash)
      (burns : List (ContentHash × F))
  | applyPlan (plan : InvalidationPlan F)
  | commit (plan : PerturbPlan F)
  | recordCost (node : ContentHash) (cost : F)

variable {F : Type} [FloatOps F] [HashBytes]

/-- One operation, whether or not it is refused. Only a count that leaves the
range of its type has no outcome. -/
def step (api : RecomputeApi F) : Action F → Option (RecomputeApi F)
  | .put record bytes => some { api with store := (api.store.put record bytes).2 }
  | .putComputation key observation bytes =>
    some { api with store := (api.store.putComputation key observation bytes).2 }
  | .pin node reason => some { api with store := (api.store.pin node reason).2 }
  | .migrateAllLegacyNodes => some { api with store := api.store.migrateAllLegacyNodes.2 }
  | .evictUnpinned keep => (api.store.evictUnpinned keep).map fun r => { api with store := r.2 }
  | .ensureCapacity maxTotal => (api.ensureCapacity maxTotal).map Prod.snd
  | .burnSlack node amount => some { api with store := (api.store.burnSlack node amount).2 }
  | .commitBurns revision state burns =>
    some { api with store := (api.store.commitBurns revision state burns).2 }
  | .applyPlan plan => some { api with store := (applyPlan api.store plan).2 }
  | .commit plan => some (api.commit plan).2
  | .recordCost node cost => some (api.recordCost node cost)

/-- The states an API over an empty store can reach. -/
def Reaches (edges : List (Edge F)) (defaultCost : F) (api : RecomputeApi F) : Prop :=
  Reachable (StepOf step) (RecomputeApi.new (Store.new F) edges defaultCost) api

end FrankenSim.Recompute
