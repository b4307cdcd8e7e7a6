import FrankenSim.Library.CycleMeans
import FrankenSim.Tropical.TaskDag

/-!
# Cycle means of weight matrices

Karp's algorithm for the largest mean weight of a cycle, and the enumeration of all simple
cycles for small matrices. `⊥` marks a missing edge; numbers are exact, so all weights are
valid and no sum overflows.
-/
namespace FrankenSim.Tropical

open Library

def MAX_TROPICAL_MATRIX_NODES : ℕ := 256

def MAX_BRUTE_FORCE_NODES : ℕ := 10

section Definitions

variable {K : Type} [Field K] [LinearOrder K]

/-- `matrix[u][v]`. -/
def entry (matrix : List (List (WithBot K))) (u v : ℕ) : WithBot K :=
  (matrix.getD u []).getD v ⊥

def validateWeightMatrix (matrix : List (List (WithBot K))) (limit : ℕ) (resource : String) :
    Except TropicalError Unit := do
  let n := matrix.length
  refuseWhen (limit < n) (.resourceLimit resource limit n)
  matrix.zipIdx.forM fun row =>
    refuseWhen (row.1.length ≠ n) (.nonSquareMatrix row.2 n row.1.length)

/-- The best walk to a node with one more edge. -/
def extendWalks (matrix : List (List (WithBot K))) (d : List (WithBot K)) (v : ℕ) : WithBot K :=
  (List.range matrix.length).foldl (fun best u =>
    if d.getD u ⊥ ≠ ⊥ ∧ entry matrix u v ≠ ⊥ then max best (d.getD u ⊥ + entry matrix u v)
    else best) ⊥

/-- `d[k]`: the best weights of walks with exactly `k` edges to every node, from anywhere. -/
def walks (matrix : List (List (WithBot K))) : ℕ → List (WithBot K)
  | 0 => List.replicate matrix.length 0
  | k + 1 => (List.range matrix.length).map (extendWalks matrix (walks matrix k))

/-- `d[k][v]`. -/
def walkTo (matrix : List (List (WithBot K))) (k v : ℕ) : WithBot K :=
  (walks matrix k).getD v ⊥

/-- The least mean of the last edges on the way to a node. -/
def worstMean (matrix : List (List (WithBot K))) (v : ℕ) : WithTop K :=
  let n := matrix.length
  (List.range n).foldl (fun worst k =>
    if walkTo matrix k v = ⊥ then worst
    else min worst ↑(((walkTo matrix n v).unbotD 0 - (walkTo matrix k v).unbotD 0) / (n - k : ℕ))) ⊤

def maxCycleMean (matrix : List (List (WithBot K))) : Except TropicalError (Option K) := do
  let n := matrix.length
  validateWeightMatrix matrix MAX_TROPICAL_MATRIX_NODES "matrix nodes"
  if n = 0 then .ok none
  else
    let lambda : WithBot K := (List.range n).foldl (fun lambda v =>
      if walkTo matrix n v = ⊥ then lambda
      else
        let worst := worstMean matrix v
        if worst = ⊤ then lambda else max lambda ↑(worst.untopD 0)) ⊥
    if lambda = ⊥ then .ok none else .ok (some (lambda.unbotD 0))

/-- The enumeration of simple cycles: `close` is what happens when the stack closes a cycle. The
fuel is the number of nodes. -/
def dfsCycles {S : Type} (close : S → List ℕ → K → S) (matrix : List (List (WithBot K)))
    (start : ℕ) : ℕ → ℕ → K → List ℕ → (ℕ → Bool) → S → S
  | 0, _, _, _, _, best => best
  | fuel + 1, u, weight, stack, onStack, best =>
    (List.range matrix.length).foldl (fun best v =>
      let w := entry matrix u v
      if w = ⊥ then best
      else if v = start then close best stack (weight + w.unbotD 0)
      else if start < v ∧ !onStack v then
        dfsCycles close matrix start fuel v (weight + w.unbotD 0) (stack ++ [v])
          (Function.update onStack v true) best
      else best) best

/-- All cycles from every start. -/
def enumerateCycles {S : Type} (close : S → List ℕ → K → S) (matrix : List (List (WithBot K)))
    (s : S) : S :=
  (List.range matrix.length).foldl (fun s start =>
    dfsCycles close matrix start matrix.length start 0 [start]
      (Function.update (fun _ => false) start true) s) s

/-- The first cycle with the largest mean is kept. -/
def keepBetter (best : Option (List ℕ × K)) (stack : List ℕ) (total : K) : Option (List ℕ × K) :=
  let mean := total / stack.length
  match best with
  | none => some (stack, mean)
  | some (cycle, oldMean) => if oldMean < mean then some (stack, mean) else some (cycle, oldMean)

def bruteForceMaxCycle (matrix : List (List (WithBot K))) :
    Except TropicalError (Option (List ℕ × K)) := do
  validateWeightMatrix matrix MAX_BRUTE_FORCE_NODES "brute-force cycle nodes"
  .ok (enumerateCycles keepBetter matrix none)

def criticalCircuit (matrix : List (List (WithBot K))) : Except TropicalError (Option (List ℕ)) := do
  let best ← bruteForceMaxCycle matrix
  .ok (best.map Prod.fst)

/-- The cycles that the enumeration closes, in its order. -/
def visitedCycles (matrix : List (List (WithBot K))) : List (List ℕ) :=
  enumerateCycles (fun visited stack _ => visited ++ [stack]) matrix []

end Definitions

end FrankenSim.Tropical
