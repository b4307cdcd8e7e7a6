import FrankenSim.Library.BinarySearch
import FrankenSim.Sparse.Csr
import Mathlib.Data.Prod.Lex
import Mathlib.Data.List.Sort

/-!
# Approximate minimum degree ordering

The elimination loop on the quotient graph. A variable that was eliminated stays as an
element, the list of the variables it joins; elements that reach nothing new are
absorbed. The heap is lazy: an entry that is no longer current is thrown away when it
comes up. A vector is a function of its index, an index beyond it is never read, and
`none` is a failed assertion, an empty heap or a counter that would go below zero.
-/
namespace FrankenSim.Sparse

open Library

variable {V : Type}

@[reducible, noinline] def put {α : Type} (xs : ℕ → α) (i : ℕ) (a : α) : ℕ → α :=
  Function.update xs i a

def push (lists : ℕ → List ℕ) (i v : ℕ) : ℕ → List ℕ :=
  fun j => if j = i then lists j ++ [v] else lists j

def sortDedup (l : List ℕ) : List ℕ := (l.insertionSort (· ≤ ·)).dedup

namespace Csr

variable (A : Csr V)

def contains (r c : ℕ) : Option Bool := do
  let (cols, _) ← A.row r
  some (binarySearch cols c).isSome

def pushRow (adj : ℕ → List ℕ) (r : ℕ) : Option (ℕ → List ℕ) := do
  let (cols, _) ← A.row r
  some (cols.foldl (fun adj c => if c ≠ r then push adj r c else adj) adj)

def pushMirror (r : ℕ) (adj : ℕ → List ℕ) (c : ℕ) : Option (ℕ → List ℕ) :=
  if c ≠ r then do
    let mirrored ← A.contains c r
    some (if mirrored then adj else push adj c r)
  else some adj

/-- The mirror images of a row's entries, where the matrix does not hold them. -/
def pushMirrors (adj : ℕ → List ℕ) (r : ℕ) : Option (ℕ → List ℕ) := do
  let (cols, _) ← A.row r
  cols.foldlM (A.pushMirror r) adj

def adjacency : Option (ℕ → List ℕ) := do
  let adj ← (List.range A.nrows).foldlM A.pushRow fun _ => []
  let adj ← (List.range A.nrows).foldlM A.pushMirrors adj
  some fun r => sortDedup (adj r)

end Csr

/-- The state of the elimination; an element carries the name of its pivot. -/
structure Quotient where
  adj : ℕ → List ℕ
  elemsOf : ℕ → List ℕ
  elemVars : ℕ → List ℕ
  elemAlive : ℕ → Bool
  varAlive : ℕ → Bool
  degree : ℕ → ℕ
  heap : List (ℕ ×ₗ ℕ)
  perm : List ℕ
  marked : ℕ → Option ℕ
  wStamp : ℕ → Option ℕ
  wVal : ℕ → ℕ

namespace Quotient

def start (n : ℕ) (adj : ℕ → List ℕ) : Quotient where
  adj := adj
  elemsOf := fun _ => []
  elemVars := fun _ => []
  elemAlive := fun _ => false
  varAlive := fun _ => true
  degree := fun i => (adj i).length
  heap := ((List.range n).map fun i => toLex ((adj i).length, i)).insertionSort (· ≤ ·)
  perm := []
  marked := fun _ => none
  wStamp := fun _ => none
  wVal := fun _ => 0

variable (q : Quotient)

/-- The least entry of a live variable that is current. -/
def popLive : List (ℕ ×ₗ ℕ) → Option (ℕ × List (ℕ ×ₗ ℕ))
  | [] => none
  | entry :: heap =>
    if q.varAlive (ofLex entry).2 && q.degree (ofLex entry).2 == (ofLex entry).1 then
      some ((ofLex entry).2, heap)
    else popLive heap

def boundary (p : ℕ) : List ℕ :=
  sortDedup ((q.adj p).filter (fun v => q.varAlive v) ++
    ((q.elemsOf p).filter fun e => q.elemAlive e).flatMap fun e =>
      (q.elemVars e).filter fun v => q.varAlive v && v != p)

/-- The elements of the pivot die and its boundary is marked. -/
def absorbPivot (step p : ℕ) (lp : List ℕ) : Quotient :=
  { q with
    elemAlive := (q.elemsOf p).foldl (fun alive e => put alive e false) q.elemAlive
    marked := lp.foldl (fun marked v => put marked v (some step)) q.marked }

/-- The live variables of an element are counted at its first visit in a step. -/
def stampElement (step e : ℕ) : Quotient :=
  if q.wStamp e ≠ some step then
    { q with
      wStamp := put q.wStamp e (some step)
      wVal := put q.wVal e ((q.elemVars e).countP fun v => q.varAlive v) }
  else q

def lowerCount (e : ℕ) : Option Quotient :=
  if q.wVal e = 0 then none else some { q with wVal := put q.wVal e (q.wVal e - 1) }

/-- A live element has one variable less outside the boundary. -/
def visitElement (step : ℕ) (q : Quotient) (e : ℕ) : Option Quotient :=
  if q.elemAlive e then (q.stampElement step e).lowerCount e else some q

def touched (lp : List ℕ) : List ℕ := lp.flatMap q.elemsOf

/-- An element inside the boundary dies. -/
def absorbElement (step : ℕ) (q : Quotient) (e : ℕ) : Quotient :=
  if q.elemAlive e && q.wStamp e == some step && q.wVal e == 0 then
    { q with elemAlive := put q.elemAlive e false }
  else q

def prunedAdj (step i : ℕ) : List ℕ :=
  (q.adj i).filter fun v => q.varAlive v && q.marked v != some step

def prunedElems (p i : ℕ) : List ℕ := (q.elemsOf i).filter (fun e => q.elemAlive e) ++ [p]

def addOutside (step p d e : ℕ) : ℕ :=
  if e ≠ p ∧ q.wStamp e = some step then d + q.wVal e else d

def approximateDegree (n step p : ℕ) (lp : List ℕ) (i : ℕ) : ℕ :=
  min ((q.prunedElems p i).foldl (q.addOutside step p)
    ((q.prunedAdj step i).length + (lp.length - 1))) (n - step - 1)

/-- A variable of the boundary drops what it reaches through the new element and is given
its new degree. -/
def refresh (n step p : ℕ) (lp : List ℕ) (q : Quotient) (i : ℕ) : Quotient :=
  { q with
    adj := put q.adj i (q.prunedAdj step i)
    elemsOf := put q.elemsOf i (q.prunedElems p i)
    degree := put q.degree i (q.approximateDegree n step p lp i)
    heap := q.heap.orderedInsert (· ≤ ·) (toLex (q.approximateDegree n step p lp i, i)) }

def becomeElement (p : ℕ) (lp : List ℕ) : Quotient :=
  { q with
    elemVars := put q.elemVars p lp
    elemAlive := put q.elemAlive p true
    elemsOf := put q.elemsOf p [] }

def retire (p : ℕ) (heap : List (ℕ ×ₗ ℕ)) : Quotient :=
  { q with varAlive := put q.varAlive p false, heap := heap, perm := q.perm ++ [p] }

def eliminateNext (n : ℕ) (q : Quotient) (step : ℕ) : Option Quotient := do
  let (p, heap) ← q.popLive q.heap
  let q := q.retire p heap
  let lp := q.boundary p
  let q := q.absorbPivot step p lp
  let q ← (q.touched lp).foldlM (visitElement step) q
  let q := (q.touched lp).foldl (absorbElement step) q
  let q := lp.foldl (refresh n step p lp) q
  some (q.becomeElement p lp)

end Quotient

def amdRun (A : Csr V) (steps : ℕ) : Option Quotient := do
  guard (A.nrows = A.ncols)
  let adj ← A.adjacency
  (List.range steps).foldlM (Quotient.eliminateNext A.nrows) (Quotient.start A.nrows adj)

def amdOrder (A : Csr V) : Option (List ℕ) := do
  let q ← amdRun A A.nrows
  some q.perm

end FrankenSim.Sparse
