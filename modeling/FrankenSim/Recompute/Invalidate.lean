import FrankenSim.Recompute.Store

/-!
# Tolerance-aware invalidation

A perturbation flows along sensitivity edges through every node it touches. A
node whose accumulated bound fits strictly inside its slack absorbs it; the
recompute set is closed upward along the edges of the plan.
-/
namespace FrankenSim.Recompute

open Library

/-- One edge with its certified sensitivity bound. -/
structure Edge (F : Type) where
  fromNode : ContentHash
  toNode : ContentHash
  sensitivity : F
  deriving DecidableEq, Repr

inductive RecomputeReason
  | sourcePerturbed
  | boundExceedsSlack
  | tieOnBoundary
  | nonFiniteSensitivity
  | negativeSensitivity
  | negativeSlack
  | pulledByDescendant
  deriving DecidableEq, Repr

inductive Verdict (F : Type)
  | skip (bound slackLeft : F)
  | recompute (bound : F) (reason : RecomputeReason)
  deriving DecidableEq, Repr

structure InvalidationPlan (F : Type) where
  verdicts : List (ContentHash × Verdict F)
  skipYield : F
  storeRevision : ℕ
  storeState : ContentHash
  deriving DecidableEq, Repr

inductive InvalidateError
  | unknownNode (node : ContentHash)
  | notTopological (fromNode toNode : ContentHash)
  deriving DecidableEq, Repr

/-- The state of a touched node after the first pass. -/
structure Touch (F : Type) where
  key : ContentHash
  hash : ContentHash
  bound : F
  slack : F
  source : Bool
  nonfinite : Bool
  negativeSensitivity : Bool
  deriving DecidableEq, Repr

/-- What the incoming edges add up to at one node. -/
structure Inflow (F : Type) where
  bound : F
  nonfinite : Bool
  negativeSensitivity : Bool
  deriving DecidableEq, Repr

variable {F : Type}

def seqOf (store : Store F) (h : ContentHash) : Except InvalidateError ℕ :=
  match store.get h with
  | some node => .ok node.seq
  | none => .error (.unknownNode h)

/-- Edges have to run from earlier to later store sequence. -/
def checkEdge (store : Store F) (e : Edge F) : Except InvalidateError Unit := do
  let sf ← seqOf store e.fromNode
  let st ← seqOf store e.toNode
  if st ≤ sf then
    throw (.notTopological e.fromNode e.toNode)

def incoming (edges : List (Edge F)) (key : ContentHash) : List (Edge F) :=
  edges.filter fun e => e.toNode = key

/-- The stored nodes in insertion order. -/
def topologicalOrder (store : Store F) : List (ContentHash × StoredNode F) :=
  store.nodes.toList.insertionSort fun a b => a.2.seq ≤ b.2.seq

section

variable [FloatOps F] [HashBytes]

/-- A listed perturbation adds its magnitude to the source of its node. -/
def addSource (store : Store F) (sources : Std.TreeMap ContentHash F)
    (perturbation : ContentHash × F) :
    Except InvalidateError (Std.TreeMap ContentHash F) := do
  let _ ← seqOf store perturbation.1
  if FloatOps.eq perturbation.2 0 then
    return sources
  let magnitude :=
    if FloatOps.isFinite perturbation.2 then FloatOps.abs perturbation.2 else FloatOps.infinity
  let accumulated := sources.getD perturbation.1 0 + magnitude
  return sources.insert perturbation.1
    (if FloatOps.isFinite accumulated then accumulated else FloatOps.infinity)

/-- One incoming edge: a parent that carries a delta adds to the bound, unless
its sensitivity is not a bound. -/
def addEdge (delta : Std.TreeMap ContentHash F) (acc : Inflow F) (e : Edge F) : Inflow F :=
  match delta[e.fromNode]? with
  | none => acc
  | some d =>
    if !FloatOps.isFinite e.sensitivity then { acc with nonfinite := true }
    else if FloatOps.lt e.sensitivity 0 then { acc with negativeSensitivity := true }
    else { acc with bound := acc.bound + e.sensitivity * d }

/-- The first pass at one node, with the deltas of the nodes before it. The slack
is read off the iterated node, which is the one the store holds for its hash. -/
def touchNode (edges : List (Edge F)) (sources : Std.TreeMap ContentHash F)
    (acc : Std.TreeMap ContentHash F × List (Touch F)) (entry : ContentHash × StoredNode F) :
    Std.TreeMap ContentHash F × List (Touch F) :=
  let (key, node) := entry
  let sourceDelta := sources[key]?
  let inflow := (incoming edges key).foldl (addEdge acc.1) ⟨sourceDelta.getD 0, false, false⟩
  if FloatOps.eq inflow.bound 0 && !inflow.nonfinite && !inflow.negativeSensitivity then acc
  else
    let delta :=
      if FloatOps.isFinite inflow.bound && !inflow.nonfinite && !inflow.negativeSensitivity then
        inflow.bound
      else FloatOps.infinity
    (acc.1.insert key delta, acc.2 ++ [{
      key
      hash := node.record.contentHash
      bound := inflow.bound
      slack := node.effectiveSlack
      source := sourceDelta.isSome
      nonfinite := inflow.nonfinite
      negativeSensitivity := inflow.negativeSensitivity }])

/-- The second pass: the initial reason to recompute, if there is one. -/
def initialReason (t : Touch F) : Option RecomputeReason :=
  if t.source then some .sourcePerturbed
  else if t.nonfinite || !FloatOps.isFinite t.bound then some .nonFiniteSensitivity
  else if t.negativeSensitivity then some .negativeSensitivity
  else if FloatOps.lt t.slack 0 then some .negativeSlack
  else if FloatOps.eq t.bound t.slack then some .tieOnBoundary
  else if FloatOps.lt t.bound t.slack then none
  else some .boundExceedsSlack

/-- A node and its reason after the upward closure. -/
abbrev Reasoned (F : Type) := Touch F × Option RecomputeReason

/-- One edge of the third pass: a touched parent without a reason is pulled. -/
def pullParent (reasons : List (Reasoned F)) (e : Edge F) : List (Reasoned F) :=
  reasons.map fun r =>
    if r.1.key = e.fromNode ∧ r.2 = none then (r.1, some .pulledByDescendant) else r

/-- The third pass at index `i`. -/
def pullParents (edges : List (Edge F)) (reasons : List (Reasoned F)) (i : ℕ) :
    List (Reasoned F) :=
  match reasons[i]? with
  | some (t, some _) => (incoming edges t.key).foldl pullParent reasons
  | _ => reasons

/-- The reverse sweep over all indices. -/
def upwardClosure (edges : List (Edge F)) (reasons : List (Reasoned F)) : List (Reasoned F) :=
  (List.range reasons.length).reverse.foldl (pullParents edges) reasons

def verdictOf : Reasoned F → Verdict F
  | (t, none) => .skip t.bound (t.slack - t.bound)
  | (t, some reason) =>
    .recompute (if reason = .nonFiniteSensitivity ∨ reason = .negativeSensitivity then
      FloatOps.infinity else t.bound) reason

def skipYield (reasons : List (Reasoned F)) : F :=
  if reasons.isEmpty then FloatOps.ofNat 1
  else FloatOps.ofNat (reasons.countP fun r => r.2.isNone) / FloatOps.ofNat reasons.length

def plan (store : Store F) (edges : List (Edge F))
    (perturbations : List (ContentHash × F)) : Except InvalidateError (InvalidationPlan F) := do
  edges.forM (checkEdge store)
  let sources ← perturbations.foldlM (addSource store) ∅
  let touched := ((topologicalOrder store).foldl (touchNode edges sources) (∅, [])).2
  let reasons := upwardClosure edges (touched.map fun t => (t, initialReason t))
  return {
    verdicts := reasons.map fun r => (r.1.hash, verdictOf r)
    skipYield := skipYield reasons
    storeRevision := store.revision
    storeState := store.stateFingerprint }

/-- The burns of a plan: every skipped node burns its absorbed bound. -/
def InvalidationPlan.burns (plan : InvalidationPlan F) : List (ContentHash × F) :=
  plan.verdicts.filterMap fun
    | (hash, .skip bound _) => some (hash, bound)
    | (_, .recompute _ _) => none

def applyPlan (store : Store F) (plan : InvalidationPlan F) : StoreM F Unit :=
  store.commitBurns plan.storeRevision plan.storeState plan.burns

end

end FrankenSim.Recompute
