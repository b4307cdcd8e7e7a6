import FrankenSim.Library.StableSort
import FrankenSim.Library.UnionFind
import Mathlib.Data.Prod.Lex
import Mathlib.Order.BoundedOrder.Basic
import Mathlib.Tactic

/-!
# Voxel fields, their Betti numbers and their persistence

A dense field of values over a box of voxels, `x` fastest. The solid below a level is a
union of closed cubes: its components are found by uniting touching voxels, its
cavities by uniting empty voxels with an outside, and its tunnels close the Euler
characteristic of the cubical complex. For the persistence the voxels are activated in the
order of their values: every voxel starts a component, a component dies when it meets an
older one, and what is left at the end never dies.
-/
namespace FrankenSim.Voxel

open Library

def asU32 (n : ℕ) : ℕ := n % 2 ^ 32

/-- The values are ordered with infinity on top; the sign of zero is not seen by any
comparison, and no value is not a number. -/
structure VoxelField (V : Type) where
  nx : ℕ
  ny : ℕ
  nz : ℕ
  values : List V

/-- A level, where `none` is not a number. -/
abbrev Level (V : Type) := Option V

variable {V : Type} [LinearOrder V] [OrderTop V]

/-- The comparison with a level, which is false when the level is not a number. -/
def below (value : V) (level : Level V) : Bool := level.any fun l => decide (value < l)

namespace VoxelField

variable (field : VoxelField V) (level : Level V)

def idx (x y z : ℕ) : ℕ := (z * field.ny + y) * field.nx + x

def valueAt (i : ℕ) : V := field.values.getD i ⊤

def filled (x y z : ℕ) : Bool := below (field.valueAt (field.idx x y z)) level

def cells : List (ℕ × ℕ × ℕ) :=
  (List.range field.nz).flatMap fun z => (List.range field.ny).flatMap fun y =>
    (List.range field.nx).map fun x => (x, y, z)

/-- The neighbours visited before a voxel, as offsets of `z`, `y` and `x`. -/
def backward26 : List (ℤ × ℤ × ℤ) :=
  [(-1, -1, -1), (-1, -1, 0), (-1, -1, 1), (-1, 0, -1), (-1, 0, 0), (-1, 0, 1), (-1, 1, -1),
    (-1, 1, 0), (-1, 1, 1), (0, -1, -1), (0, -1, 0), (0, -1, 1), (0, 0, -1)]

/-- Unite a voxel with one neighbour of the stencil, when that is filled. -/
def uniteNeighbor (cell : ℕ × ℕ × ℕ) (uf : UnionFind) (offset : ℤ × ℤ × ℤ) : UnionFind :=
  let nxp := (cell.1 : ℤ) + offset.2.2
  let nyp := (cell.2.1 : ℤ) + offset.2.1
  let nzp := (cell.2.2 : ℤ) + offset.1
  if nxp < 0 ∨ nyp < 0 ∨ nzp < 0 then uf
  else if nxp.toNat ≥ field.nx ∨ nyp.toNat ≥ field.ny ∨ nzp.toNat ≥ field.nz then uf
  else if field.filled level nxp.toNat nyp.toNat nzp.toNat then
    (uf.union (asU32 (field.idx cell.1 cell.2.1 cell.2.2))
      (asU32 (field.idx nxp.toNat nyp.toNat nzp.toNat))).1
  else uf

/-- Unite a filled voxel with its visited neighbours and count it. -/
def uniteSolid (state : UnionFind × ℕ) (cell : ℕ × ℕ × ℕ) : UnionFind × ℕ :=
  if !field.filled level cell.1 cell.2.1 cell.2.2 then state
  else (backward26.foldl (field.uniteNeighbor level cell) state.1, state.2 + 1)

def countSolid (state : UnionFind × ℕ) (cell : ℕ × ℕ × ℕ) : UnionFind × ℕ :=
  let i := asU32 (field.idx cell.1 cell.2.1 cell.2.2)
  if field.filled level cell.1 cell.2.1 cell.2.2 then
    let found := state.1.find i
    (found.1, if found.2 = i then state.2 + 1 else state.2)
  else state

/-- Unite an empty voxel with the outside at the border and with its visited faces. -/
def uniteVoid (outside : ℕ) (uf : UnionFind) (cell : ℕ × ℕ × ℕ) : UnionFind :=
  let (x, y, z) := cell
  if field.filled level x y z then uf
  else
    let i := asU32 (field.idx x y z)
    let uf :=
      if x = 0 ∨ y = 0 ∨ z = 0 ∨ x = field.nx - 1 ∨ y = field.ny - 1 ∨ z = field.nz - 1 then
        (uf.union i outside).1
      else uf
    let uf :=
      if x > 0 ∧ field.filled level (x - 1) y z = false then
        (uf.union i (asU32 (field.idx (x - 1) y z))).1
      else uf
    let uf :=
      if y > 0 ∧ field.filled level x (y - 1) z = false then
        (uf.union i (asU32 (field.idx x (y - 1) z))).1
      else uf
    if z > 0 ∧ field.filled level x y (z - 1) = false then
      (uf.union i (asU32 (field.idx x y (z - 1)))).1
    else uf

/-- Count an empty voxel that is the root of a bounded component. -/
def countVoid (outRoot : ℕ) (state : UnionFind × ℕ) (cell : ℕ × ℕ × ℕ) : UnionFind × ℕ :=
  let i := asU32 (field.idx cell.1 cell.2.1 cell.2.2)
  if field.filled level cell.1 cell.2.1 cell.2.2 then state
  else
    let found := state.1.find i
    (found.1, if found.2 = i ∧ i ≠ outRoot then state.2 + 1 else state.2)

def filledAt (x y z : ℤ) : Bool :=
  decide (0 ≤ x ∧ 0 ≤ y ∧ 0 ≤ z ∧ asU32 x.toNat < field.nx ∧ asU32 y.toNat < field.ny ∧
    asU32 z.toNat < field.nz) && field.filled level (asU32 x.toNat) (asU32 y.toNat) (asU32 z.toNat)

def corners : List (ℕ × ℕ × ℕ) :=
  (List.range (field.nz + 1)).flatMap fun z => (List.range (field.ny + 1)).flatMap fun y =>
    (List.range (field.nx + 1)).map fun x => (x, y, z)

/-- A corner with a filled voxel among the eight around it. -/
def vertexPresent (x y z : ℤ) : Bool :=
  [-1, 0].any fun dz => [-1, 0].any fun dy => [-1, 0].any fun dx =>
    field.filledAt level (x + dx) (y + dy) (z + dz)

/-- The edges from a corner that have a filled voxel among the four around them. -/
def edgesPresent (x y z : ℕ) : ℤ :=
  ((List.range 3).filter fun axis =>
    !((axis = 0 && x ≥ field.nx) || (axis = 1 && y ≥ field.ny) || (axis = 2 && z ≥ field.nz)) &&
      ([-1, 0].any fun u => [-1, 0].any fun w =>
        if axis = 0 then field.filledAt level x (y + u) (z + w)
        else if axis = 1 then field.filledAt level (x + u) y (z + w)
        else field.filledAt level (x + u) (y + w) z)).length

/-- The faces at a corner that have a filled voxel on one of their sides. -/
def facesPresent (x y z : ℕ) : ℤ :=
  ((List.range 3).filter fun axis =>
    (if axis = 0 then y < field.ny && z < field.nz
      else if axis = 1 then x < field.nx && z < field.nz
      else x < field.nx && y < field.ny) &&
    ((if axis = 0 then field.filledAt level (x - 1) y z
      else if axis = 1 then field.filledAt level x (y - 1) z
      else field.filledAt level x y (z - 1)) || field.filledAt level x y z)).length

/-- The components, the tunnels and the cavities of the solid below a level. -/
def betti : ℕ × ℕ × ℕ :=
  let total := field.values.length
  let solid := field.cells.foldl (field.uniteSolid level) (UnionFind.new, 0)
  let filledCount := solid.2
  if filledCount = 0 then (0, 0, 0)
  else
    let b0 := (field.cells.foldl (field.countSolid level) (solid.1, 0)).2
    let outside := asU32 total
    let ufc := (field.cells.foldl (field.uniteVoid level outside) UnionFind.new).find outside
    let b2 := (field.cells.foldl (field.countVoid level ufc.2) (ufc.1, 0)).2
    let vCount : ℤ := (field.corners.filter fun p => field.vertexPresent level p.1 p.2.1 p.2.2).length
    let eCount := (field.corners.map fun p => field.edgesPresent level p.1 p.2.1 p.2.2).sum
    let fCount := (field.corners.map fun p => field.facesPresent level p.1 p.2.1 p.2.2).sum
    let chi := vCount - eCount + fCount - filledCount
    (b0, asU32 (max ((b0 : ℤ) + b2 - chi) 0).toNat, b2)

end VoxelField

/-- A component from its birth to its death, with a voxel that created it. -/
structure Bar (V : Type) where
  birth : V
  birthIndex : ℕ
  death : V
  deriving DecidableEq

/-- The order of the bars in the result. -/
def Bar.key (bar : Bar V) : V ×ₗ V ×ₗ ℕ := toLex (bar.birth, toLex (bar.death, bar.birthIndex))

/-- The state of the sweep. Births and their voxels are those of the roots, written before
they are read. -/
structure Sweep (V : Type) where
  uf : UnionFind
  birth : ℕ → V
  birthIndex : ℕ → ℕ
  active : ℕ → Bool
  bars : List (Bar V)

namespace Sweep

def start : Sweep V := ⟨UnionFind.new, fun _ => ⊤, fun _ => 0, fun _ => false, []⟩

def activate (s : Sweep V) (i : ℕ) (v : V) : Sweep V where
  uf := s.uf
  birth := Function.update s.birth i v
  birthIndex := Function.update s.birthIndex i i
  active := Function.update s.active i true
  bars := s.bars

/-- Two components meet at a value. The younger dies there, unless it was born there, and
the survivor's birth goes to the new root. -/
def meet (s : Sweep V) (v : V) (ri rn : ℕ) : Sweep V :=
  let bi := s.birth ri
  let bn := s.birth rn
  let survivor := if bi ≤ bn then (bi, s.birthIndex ri) else (bn, s.birthIndex rn)
  let dying := if bi ≤ bn then (bn, s.birthIndex rn) else (bi, s.birthIndex ri)
  let found := (s.uf.union ri rn).1.find ri
  { s with
    uf := found.1
    birth := Function.update s.birth found.2 survivor.1
    birthIndex := Function.update s.birthIndex found.2 survivor.2
    bars := if v > dying.1 then s.bars ++ [⟨dying.1, dying.2, v⟩] else s.bars }

def visit (i : ℕ) (v : V) (s : Sweep V) (nb : ℕ) : Sweep V :=
  if !s.active nb then s
  else
    let fi := s.uf.find i
    let fn := fi.1.find nb
    if fi.2 = fn.2 then { s with uf := fn.1 }
    else meet { s with uf := fn.1 } v fi.2 fn.2

def finish (s : Sweep V) (i : ℕ) : Sweep V :=
  let found := s.uf.find i
  { s with
    uf := found.1
    bars := if found.2 = i ∧ s.active i then s.bars ++ [⟨s.birth i, s.birthIndex i, ⊤⟩] else s.bars }

end Sweep

namespace VoxelField

variable (field : VoxelField V)

def neighbors (i : ℕ) : List ℕ :=
  let x := i % field.nx
  let y := i / field.nx % field.ny
  let z := i / (field.nx * field.ny)
  ([if x > 0 then some (i - 1) else none,
    if x + 1 < field.nx then some (i + 1) else none,
    if y > 0 then some (i - field.nx) else none,
    if y + 1 < field.ny then some (i + field.nx) else none,
    if z > 0 then some (i - field.nx * field.ny) else none,
    if z + 1 < field.nz then some (i + field.nx * field.ny) else none] : List (Option ℕ)).filterMap id

def sweepVoxel (s : Sweep V) (i : ℕ) : Sweep V :=
  (field.neighbors i).foldl (Sweep.visit i (field.valueAt i)) (s.activate i (field.valueAt i))

def order : List ℕ :=
  sortByKey (fun i => (toLex (field.valueAt i, i) : V ×ₗ ℕ)) (List.range (asU32 field.values.length))

/-- The bars of the components over all levels. -/
def persistence0 : List (Bar V) :=
  let swept := field.order.foldl field.sweepVoxel Sweep.start
  let finished := (List.range (asU32 field.values.length)).foldl Sweep.finish swept
  sortByKey Bar.key finished.bars

end VoxelField

end FrankenSim.Voxel
