import FrankenSim.Sparse.MinimumDegree

/-!
# Symbolic analysis

Elimination tree, postorder, column structures and supernodes of a symmetric pattern.
A missing parent, ancestor, stamp or supernode is `none`. A loop of the source that
climbs the tree or empties the stack counts down from a bound it never reaches.
-/
namespace FrankenSim.Sparse

open Library

variable {V : Type}

inductive DirectOrdering
  | natural
  | amd
  deriving DecidableEq, Repr

inductive LdltError
  | notSquare (nrows ncols : ℕ)
  | structurallyAsymmetric (row col : ℕ)
  deriving DecidableEq, Repr

def inversePerm (perm : List ℕ) : ℕ → ℕ :=
  perm.zipIdx.foldl (fun iperm entry => put iperm entry.1 entry.2) fun _ => 0

namespace Csr

variable (A : Csr V)

def findUnmirrored (r : ℕ) : Option (Option (ℕ × ℕ)) := do
  let (cols, _) ← A.row r
  cols.findSomeM? fun c => do
    let mirrored ← A.contains c r
    some (if mirrored then none else some (r, c))

def pushLower (iperm : ℕ → ℕ) (r : ℕ) (ladj : ℕ → List ℕ) (c : ℕ) : ℕ → List ℕ :=
  if iperm c < iperm r then push ladj (iperm r) (iperm c) else ladj

def pushLowerRow (iperm : ℕ → ℕ) (ladj : ℕ → List ℕ) (r : ℕ) : Option (ℕ → List ℕ) := do
  let (cols, _) ← A.row r
  some (cols.foldl (pushLower iperm r) ladj)

/-- The earlier neighbours of every vertex, in elimination order. -/
def buildLowerAdj (iperm : ℕ → ℕ) : Option (ℕ → List ℕ) := do
  let ladj ← (List.range A.nrows).foldlM (A.pushLowerRow iperm) fun _ => []
  some fun i => (ladj i).insertionSort (· ≤ ·)

def patternRow (pattern : List ℕ × List ℕ) (r : ℕ) : Option (List ℕ × List ℕ) := do
  let (cols, _) ← A.row r
  some (pattern.1 ++ [(pattern.2 ++ cols).length], pattern.2 ++ cols)

def patternOf : Option (List ℕ × List ℕ) := (List.range A.nrows).foldlM A.patternRow ([0], [])

end Csr

/-- The tree under construction, with shortcuts to ancestors. -/
structure Forest where
  parent : ℕ → Option ℕ
  ancestor : ℕ → Option ℕ

/-- Follow the shortcuts from `t` and point each of them at `i`. -/
def climb (i : ℕ) : ℕ → (ℕ → Option ℕ) → ℕ → Option ((ℕ → Option ℕ) × ℕ)
  | 0, _, _ => none
  | fuel + 1, ancestor, t =>
    match ancestor t with
    | none => some (ancestor, t)
    | some next =>
      if next = i then some (ancestor, t) else climb i fuel (put ancestor t (some i)) next

/-- The root above the neighbour `j` becomes a child of `i`. -/
def link (n i : ℕ) (forest : Forest) (j : ℕ) : Option Forest := do
  let (ancestor, t) ← climb i n forest.ancestor j
  some (if ancestor t = none then ⟨put forest.parent t (some i), put ancestor t (some i)⟩
    else ⟨forest.parent, ancestor⟩)

def linkRow (n : ℕ) (ladj : ℕ → List ℕ) (forest : Forest) (i : ℕ) : Option Forest :=
  (ladj i).foldlM (link n i) forest

def etree (n : ℕ) (ladj : ℕ → List ℕ) : Option (ℕ → Option ℕ) := do
  let forest ← (List.range n).foldlM (linkRow n ladj) ⟨fun _ => none, fun _ => none⟩
  some forest.parent

/-- The roots and the children found so far. -/
def sprout (parent : ℕ → Option ℕ) (found : List ℕ × (ℕ → List ℕ)) (j : ℕ) :
    List ℕ × (ℕ → List ℕ) :=
  match parent j with
  | none => (found.1 ++ [j], found.2)
  | some p => (found.1, push found.2 p j)

/-- Empty the stack of nodes and next children, its top first. -/
def postLoop (children : ℕ → List ℕ) : ℕ → List (ℕ × ℕ) → List ℕ → Option (List ℕ)
  | 0, _, _ => none
  | _ + 1, [], post => some post
  | fuel + 1, (node, next) :: stack, post =>
    match (children node)[next]? with
    | some child => postLoop children fuel ((child, 0) :: (node, next + 1) :: stack) post
    | none => postLoop children fuel stack (post ++ [node])

def postorder (n : ℕ) (parent : ℕ → Option ℕ) : Option (List ℕ) :=
  let found := (List.range n).foldl (sprout parent) ([], fun _ => [])
  found.1.foldlM (fun post r => postLoop found.2 (2 * n + 1) [(r, 0)] post) []

structure Columns where
  cs : ℕ → List ℕ
  stamp : ℕ → Option ℕ

/-- Row `i` enters the columns from `t` upwards, until it meets itself. -/
def enterRow (parent : ℕ → Option ℕ) (i : ℕ) : ℕ → Columns → ℕ → Option Columns
  | 0, _, _ => none
  | fuel + 1, columns, t =>
    if t = i ∨ columns.stamp t = some i then some columns
    else
      let entered : Columns := ⟨push columns.cs t i, put columns.stamp t (some i)⟩
      match parent t with
      | none => some entered
      | some p => enterRow parent i fuel entered p

def columnsRow (n : ℕ) (ladj : ℕ → List ℕ) (parent : ℕ → Option ℕ) (columns : Columns) (i : ℕ) :
    Option Columns :=
  (ladj i).foldlM (enterRow parent i n) ⟨columns.cs, put columns.stamp i (some i)⟩

def colStructs (n : ℕ) (ladj : ℕ → List ℕ) (parent : ℕ → Option ℕ) : Option (ℕ → List ℕ) := do
  let columns ← (List.range n).foldlM (columnsRow n ladj parent) ⟨fun _ => [], fun _ => none⟩
  some columns.cs

/-- A run of columns with one panel. -/
structure SnodeSym where
  colStart : ℕ
  width : ℕ
  panel : List ℕ
  parent : Option ℕ
  children : List ℕ
  deriving DecidableEq, Repr

/-- Column `j` can join the supernode of the column after it. -/
def joins (n : ℕ) (parent : ℕ → Option ℕ) (cs : ℕ → List ℕ) (j : ℕ) : Bool :=
  decide (j + 1 < n) && parent j == some (j + 1) && (cs j).length == (cs (j + 1)).length + 1 &&
    (cs j).head? == some (j + 1) && (cs j).tail == cs (j + 1)

/-- The last column of the supernode that starts before or at `j`. -/
def extendRun (n : ℕ) (parent : ℕ → Option ℕ) (cs : ℕ → List ℕ) : ℕ → ℕ → ℕ
  | 0, j => j
  | fuel + 1, j => if joins n parent cs j then extendRun n parent cs fuel (j + 1) else j

/-- The supernodes so far, and the supernode of every column. -/
structure Supernodes where
  snodes : List SnodeSym
  snodeOf : ℕ → Option ℕ

def partitionColumns (n : ℕ) (parent : ℕ → Option ℕ) (cs : ℕ → List ℕ) :
    ℕ → ℕ → Supernodes → Option Supernodes
  | 0, _, _ => none
  | fuel + 1, j, found =>
    if j < n then do
      let last := extendRun n parent cs n j
      let width := last - j + 1
      let panel ← span (width - 1) (cs j).length (cs j)
      let id := found.snodes.length
      partitionColumns n parent cs fuel (last + 1)
        ⟨found.snodes ++ [⟨j, width, panel, none, []⟩],
          (List.range' j width).foldl (fun snodeOf c => put snodeOf c (some id)) found.snodeOf⟩
    else some found

/-- The assembly parent of a supernode is that of its last column. -/
def attach (parent : ℕ → Option ℕ) (snodeOf : ℕ → Option ℕ) (snodes : List SnodeSym) (id : ℕ) :
    Option (List SnodeSym) := do
  let snode ← snodes[id]?
  match parent (snode.colStart + snode.width - 1) with
  | none => some snodes
  | some p => do
    let ps ← snodeOf p
    let snodes ← modifyAt id (fun s => { s with parent := some ps }) snodes
    modifyAt ps (fun s => { s with children := s.children ++ [id] }) snodes

structure SymbolicLdlt where
  n : ℕ
  perm : List ℕ
  iperm : ℕ → ℕ
  snodes : List SnodeSym
  nnzL : ℕ
  patRowPtr : List ℕ
  patColIdx : List ℕ

structure Structure where
  parent : ℕ → Option ℕ
  cs : ℕ → List ℕ

namespace Csr

variable (A : Csr V)

def basePerm : DirectOrdering → Option (List ℕ)
  | .natural => some (List.range A.nrows)
  | .amd => amdOrder A

def finalPerm (basePerm : List ℕ) : Option (List ℕ) := do
  let ladj ← A.buildLowerAdj (inversePerm basePerm)
  let parent ← etree A.nrows ladj
  let post ← postorder A.nrows parent
  post.mapM fun k => basePerm[k]?

def structureOf (perm : List ℕ) : Option Structure := do
  let ladj ← A.buildLowerAdj (inversePerm perm)
  let parent ← etree A.nrows ladj
  let cs ← colStructs A.nrows ladj parent
  some ⟨parent, cs⟩

def supernodes (S : Structure) : Option (List SnodeSym) := do
  let found ← partitionColumns A.nrows S.parent S.cs (A.nrows + 1) 0 ⟨[], fun _ => none⟩
  (List.range found.snodes.length).foldlM (attach S.parent found.snodeOf) found.snodes

def analyzeSymmetric (ordering : DirectOrdering) : Option SymbolicLdlt := do
  let basePerm ← A.basePerm ordering
  let perm ← A.finalPerm basePerm
  let S ← A.structureOf perm
  let snodes ← A.supernodes S
  let pattern ← A.patternOf
  some ⟨A.nrows, perm, inversePerm perm, snodes,
    A.nrows + ((List.range A.nrows).map fun j => (S.cs j).length).sum, pattern.1, pattern.2⟩

def analyze (ordering : DirectOrdering) : Option (Except LdltError SymbolicLdlt) :=
  if A.nrows ≠ A.ncols then some (.error (.notSquare A.nrows A.ncols))
  else do
    match ← (List.range A.nrows).findSomeM? A.findUnmirrored with
    | some (r, c) => some (.error (.structurallyAsymmetric r c))
    | none => do
      let S ← A.analyzeSymmetric ordering
      some (.ok S)

end Csr

end FrankenSim.Sparse
