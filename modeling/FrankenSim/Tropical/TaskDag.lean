import FrankenSim.Library.Refusals
import FrankenSim.Library.TopologicalOrder
import Mathlib.Algebra.Order.Group.Defs
import Mathlib.Order.WithBot

/-!
# Critical paths of task graphs

Tasks with latencies and precedence edges between them. The makespan is the longest path
in the max-plus semiring, the slack of a task is how much later it may finish. Numbers
are exact, so all of them are finite and no sum overflows; the directed rounding of the
bounds is a parameter.
-/
namespace FrankenSim.Tropical

open Library

def MAX_TASK_DAG_NODES : ℕ := 4096

def MAX_TASK_DAG_EDGES : ℕ := 65536

inductive TropicalError
  | cyclic
  | badEdge (node : ℕ)
  | invalidLatency (node : ℕ) (reason : String)
  | resourceLimit (resource : String) (limit observed : ℕ)
  | nonSquareMatrix (row expected actual : ℕ)
  deriving DecidableEq, Repr

/-- Neighbours of a number in the directions of the rounding. -/
class DirectedRounding (K : Type) [LE K] where
  nextDown : K → K
  nextUp : K → K
  nextDown_le (x : K) : nextDown x ≤ x
  le_nextUp (x : K) : x ≤ nextUp x

export DirectedRounding (nextDown nextUp nextDown_le le_nextUp)

/-- Latencies of the tasks, and precedence edges from one task to another. -/
structure TaskDag (K : Type) where
  latency : List K
  edges : List (ℕ × ℕ)
  deriving DecidableEq, Repr

structure DagTopology where
  adj : ℕ → List ℕ
  preds : ℕ → List ℕ
  order : List ℕ

structure EarliestFinishes (K : Type) where
  values : ℕ → K
  lower : ℕ → K
  upper : ℕ → K
  bestPred : ℕ → Option ℕ

structure CriticalPath (K : Type) where
  makespan : K
  makespanLo : K
  makespanHi : K
  pathIsUnique : Bool
  path : List ℕ
  slack : List K
  deriving DecidableEq, Repr

/-- `table[i].push(x)`. -/
def pushAt (table : ℕ → List ℕ) (i x : ℕ) : ℕ → List ℕ :=
  Function.update table i (table i ++ [x])

namespace TaskDag

variable {K : Type} [AddCommGroup K] [LinearOrder K] (dag : TaskDag K)

def len : ℕ := dag.latency.length

/-- The latency of a task of the graph. -/
def latencyOf (node : ℕ) : K := dag.latency.getD node 0

def validateLatencies : Except TropicalError Unit :=
  match dag.latency.findIdx? fun latency => latency < 0 with
  | some node => .error (.invalidLatency node "must be non-negative")
  | none => .ok ()

def validateEdges : Except TropicalError Unit :=
  dag.edges.forM fun e => do
    refuseWhen (dag.len ≤ e.1) (.badEdge e.1)
    refuseWhen (dag.len ≤ e.2) (.badEdge e.2)

def validatedTopology : Except TropicalError DagTopology := do
  let n := dag.len
  refuseWhen (MAX_TASK_DAG_NODES < n) (.resourceLimit "task nodes" MAX_TASK_DAG_NODES n)
  refuseWhen (MAX_TASK_DAG_EDGES < dag.edges.length)
    (.resourceLimit "task edges" MAX_TASK_DAG_EDGES dag.edges.length)
  dag.validateLatencies
  dag.validateEdges
  let adj := dag.edges.foldl (fun adj e => pushAt adj e.1 e.2) fun _ => []
  let preds := dag.edges.foldl (fun preds e => pushAt preds e.2 e.1) fun _ => []
  let indegree := dag.edges.foldl (fun d e => Function.update d e.2 (d e.2 + 1)) fun _ => 0
  -- the top of the stack is the head of the list
  let queue := ((List.range n).filter fun node => indegree node = 0).reverse
  let order := drain adj n (indegree, queue) []
  if order.length ≠ n then .error .cyclic else .ok ⟨adj, preds, order⟩

/-- The best finish among the predecessors, and the first of them that has it. -/
def bestOf (values : ℕ → K) (preds : List ℕ) : WithBot K × Option ℕ :=
  preds.foldl (fun best predecessor =>
    if best.1 < (values predecessor : WithBot K) then (values predecessor, some predecessor)
    else best) (⊥, none)

/-- `fold(0.0, max)` over the values of some tasks. -/
def maxOf (values : ℕ → K) (nodes : List ℕ) : K :=
  (nodes.map values).foldl max 0

/-- One round of the loop over the order. -/
def finish [DirectedRounding K] (preds : ℕ → List ℕ) (s : EarliestFinishes K) (node : ℕ) :
    EarliestFinishes K :=
  let best := bestOf s.values (preds node)
  let predecessorLo := maxOf s.lower (preds node)
  let predecessorHi := maxOf s.upper (preds node)
  ⟨Function.update s.values node (max (best.1.unbotD 0) 0 + dag.latencyOf node),
    Function.update s.lower node (nextDown (predecessorLo + dag.latencyOf node)),
    Function.update s.upper node (nextUp (predecessorHi + dag.latencyOf node)),
    Function.update s.bestPred node best.2⟩

def earliestFinishes [DirectedRounding K] (preds : ℕ → List ℕ) (order : List ℕ) :
    EarliestFinishes K :=
  order.foldl (dag.finish preds) ⟨fun _ => 0, fun _ => 0, fun _ => 0, fun _ => none⟩

/-- `max_by(total_cmp)`: the last one among the greatest. -/
def maxBy (values : ℕ → K) : List ℕ → Option ℕ
  | [] => none
  | node :: nodes => some (nodes.foldl (fun best x => if values x < values best then best else x) node)

/-- The best predecessors from a task on, in front of the path behind them. The fuel is the
number of tasks. -/
def backtrack (bestPred : ℕ → Option ℕ) : ℕ → ℕ → List ℕ → List ℕ
  | 0, _, path => path
  | fuel + 1, cur, path =>
    match bestPred cur with
    | none => path
    | some p => backtrack bestPred fuel p (p :: path)

/-- Whether the bounds put every other task of a list strictly below the chosen one. -/
def beatsAll (s : EarliestFinishes K) (chosen : ℕ) (nodes : List ℕ) : Bool :=
  (nodes.filter (· ≠ chosen)).all fun candidate => s.upper candidate < s.lower chosen

/-- The latest finish of a task from those of its successors. -/
def latest (adj : ℕ → List ℕ) (makespan : K) (lf : ℕ → K) (u : ℕ) : K :=
  if adj u = [] then lf u
  else ((adj u).map fun v => lf v - dag.latencyOf v).foldl min makespan

/-- The analysis over a topology. -/
def analyze [DirectedRounding K] (topology : DagTopology) : Except TropicalError (CriticalPath K) :=
  let n := dag.len
  let adj := topology.adj
  let preds := topology.preds
  if n = 0 then .ok ⟨0, 0, 0, false, [], []⟩
  else
    let ef := dag.earliestFinishes preds topology.order
    let terminals := (List.range n).filter fun node => (adj node).isEmpty
    let makespan := maxOf ef.values terminals
    match maxBy ef.values terminals with
    | none => .error .cyclic
    | some sink =>
      let path := backtrack ef.bestPred n sink [sink]
      let pathIsUnique := beatsAll ef sink terminals &&
        (path.zip path.tail).all fun pair => beatsAll ef pair.1 (preds pair.2)
      let lf := sweepValues (dag.latest adj makespan) topology.order.reverse fun _ => makespan
      .ok ⟨makespan, maxOf ef.lower terminals, maxOf ef.upper terminals, pathIsUnique, path,
        (List.range n).map fun i => lf i - ef.values i⟩

def criticalPath [DirectedRounding K] : Except TropicalError (CriticalPath K) :=
  dag.validatedTopology >>= dag.analyze

/-- Tasks of the certified critical path with a positive latency, the largest first. -/
def tuneNext [DirectedRounding K] : Except TropicalError (List ℕ) := do
  let cp ← dag.criticalPath
  if !cp.pathIsUnique then .ok []
  else
    let critical := cp.path.filter fun task => 0 < dag.latencyOf task
    .ok (critical.mergeSort fun a b => dag.latencyOf b ≤ dag.latencyOf a)

/-- The one task that may be sped up with the largest effect. -/
def bottleneck [DirectedRounding K] : Except TropicalError (Option ℕ) := do
  let ranked ← dag.tuneNext
  match ranked with
  | [] => .ok none
  | [first] => .ok (some first)
  | first :: second :: _ =>
    if dag.latencyOf first = dag.latencyOf second then .ok none else .ok (some first)

end TaskDag

end FrankenSim.Tropical
