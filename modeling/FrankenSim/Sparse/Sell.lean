import FrankenSim.Library.Refusals
import FrankenSim.Library.StableSort
import FrankenSim.Sparse.Kernels
import Mathlib.Order.OrderDual

/-!
# Sliced rows

Rows are sorted by descending length within windows and stored in chunks of `c`
rows, lane by lane. A chunk is as wide as its longest row, so every entry of a
row has a slot of its own: chunks do not overlap, and within a chunk the slot
determines the lane and the position in the row.
-/
namespace FrankenSim.Sparse

open Library

inductive SellError
  | invalidChunkHeight (chunkHeight : ℕ)
  | geometryOverflow (operation : String) (lhs rhs : ℕ)
  deriving DecidableEq, Repr

/-- How the conversion can end without a result. -/
inductive SellFailure
  | refused (error : SellError)
  | panic
  deriving DecidableEq, Repr

def checkedGeometryAdd (operation : String) (lhs rhs : ℕ) : Except SellFailure ℕ :=
  if lhs + rhs ≤ usizeMax then .ok (lhs + rhs)
  else .error (.refused (.geometryOverflow operation lhs rhs))

def checkedGeometryMul (operation : String) (lhs rhs : ℕ) : Except SellFailure ℕ :=
  if lhs * rhs ≤ usizeMax then .ok (lhs * rhs)
  else .error (.refused (.geometryOverflow operation lhs rhs))

def orPanic {α : Type} : Option α → Except SellFailure α
  | some a => .ok a
  | none => .error .panic

/-- Sliced rows. The row at sorted position `pos` is in lane `pos % c` of chunk
`pos / c`. -/
structure Sell (V : Type) where
  c : ℕ
  sigma : ℕ
  nrows : ℕ
  ncols : ℕ
  /-- Sorted position to original row. -/
  perm : List ℕ
  /-- True row length of each sorted position. -/
  rowLen : List ℕ
  /-- Chunk start offsets. -/
  chunkPtr : List ℕ
  colIdx : List ℕ
  vals : List V
  deriving DecidableEq, Repr

namespace Sell

variable {V : Type}

def rowLength (A : Csr V) (r : ℕ) : Option ℕ := (A.row r).map fun row => row.1.length

/-- The rows in windows of `sigma`, each window sorted by descending length. -/
def sortWindows (A : Csr V) (sigma : ℕ) : List ℕ :=
  (List.range (divCeil A.nrows sigma)).flatMap fun w =>
    sortByKey (fun r => OrderDual.toDual ((rowLength A r).getD 0))
      ((List.range (min sigma (A.nrows - w * sigma))).map (w * sigma + ·))

/-- The width of a chunk is the length of its longest row. -/
def pushChunk (c nrows : ℕ) (rowLen chunkPtr : List ℕ) (ch : ℕ) :
    Except SellFailure (List ℕ) := do
  let row0 ← checkedGeometryMul "locating a chunk row start" ch c
  let nextChunk ← checkedGeometryAdd "locating the next chunk" ch 1
  let row1 ← checkedGeometryMul "locating a chunk row end" nextChunk c
  let lens ← orPanic ((List.range' row0 (min row1 nrows - row0)).mapM fun p => rowLen[p]?)
  let chunkSlots ← checkedGeometryMul "sizing a chunk" (lens.max?.getD 0) c
  let base ← orPanic chunkPtr[ch]?
  let stop ← checkedGeometryAdd "accumulating chunk storage" base chunkSlots
  .ok (chunkPtr ++ [stop])

def slotOf (c : ℕ) (chunkPtr : List ℕ) (pos k : ℕ) : Except SellFailure ℕ := do
  let stride ← checkedGeometryMul "locating a SELL slot" k c
  let base ← orPanic chunkPtr[pos / c]?
  let slot ← checkedGeometryAdd "offsetting a SELL slot" base stride
  checkedGeometryAdd "selecting a SELL lane" slot (pos % c)

def rowSlots (A : Csr V) (c : ℕ) (chunkPtr : List ℕ) (pos orig : ℕ) :
    Except SellFailure (List (ℕ × ℕ × V)) := do
  let row ← orPanic (A.row orig)
  (row.1.zip row.2).zipIdx.mapM fun e => do
    let slot ← slotOf c chunkPtr pos e.2
    .ok (slot, e.1)

def fromCsr [Zero V] (A : Csr V) (c sigma : ℕ) : Except SellFailure (Sell V) := do
  if c = 0 then
    throw (.refused (.invalidChunkHeight c))
  let sigma ← checkedGeometryMul "rounding sigma to chunk height" (divCeil (max sigma c) c) c
  let perm := sortWindows A sigma
  let nchunks := divCeil A.nrows c
  let rowLen ← orPanic (perm.mapM (rowLength A))
  let _ ← checkedGeometryAdd "sizing the chunk pointer table" nchunks 1
  let chunkPtr ← (List.range nchunks).foldlM (pushChunk c A.nrows rowLen) [0]
  let total ← orPanic chunkPtr[nchunks]?
  let slots ← perm.zipIdx.mapM fun p => rowSlots A c chunkPtr p.2 p.1
  let colIdx ← orPanic (slots.flatten.foldlM (fun colIdx s => modifyAt s.1 (fun _ => s.2.1) colIdx)
    (List.replicate total 0))
  let vals ← orPanic (slots.flatten.foldlM (fun vals s => modifyAt s.1 (fun _ => s.2.2) vals)
    (List.replicate total 0))
  .ok ⟨c, sigma, A.nrows, A.ncols, perm, rowLen, chunkPtr, colIdx, vals⟩

end Sell

end FrankenSim.Sparse
