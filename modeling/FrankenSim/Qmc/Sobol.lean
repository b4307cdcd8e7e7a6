import Mathlib.Data.List.Basic
import Mathlib.Data.Rat.Defs

/-!
# Sobol sequences with nested scrambling

Direction numbers from the recurrences of the embedded table, points in Gray-code order, and
the scramble that flips every digit by a word drawn for the digits above it. The words of
the generator come from Philox4x32-10.
-/
namespace FrankenSim.Qmc

section Philox

def M0 : BitVec 32 := 0xD2511F53

def M1 : BitVec 32 := 0xCD9E8D57

def W0 : BitVec 32 := 0x9E3779B9

def W1 : BitVec 32 := 0xBB67AE85

def mulhilo (a b : BitVec 32) : BitVec 32 × BitVec 32 :=
  let wide := a.setWidth 64 * b.setWidth 64
  ((wide >>> 32).setWidth 32, wide.setWidth 32)

structure Counter where
  w0 : BitVec 32
  w1 : BitVec 32
  w2 : BitVec 32
  w3 : BitVec 32
  deriving DecidableEq, Repr

def round (ctr : Counter) (key : BitVec 32 × BitVec 32) : Counter :=
  let (hi0, lo0) := mulhilo M0 ctr.w0
  let (hi1, lo1) := mulhilo M1 ctr.w2
  ⟨hi1 ^^^ ctr.w1 ^^^ key.1, lo1, hi0 ^^^ ctr.w3 ^^^ key.2, lo0⟩

def philox4x32_10 (ctr : Counter) (key : BitVec 32 × BitVec 32) : Counter :=
  ((List.range 10).foldl (fun (s : Counter × BitVec 32 × BitVec 32) i =>
    let key := if 0 < i then (s.2.1 + W0, s.2.2 + W1) else s.2
    (round s.1 key, key)) (ctr, key)).1

example : philox4x32_10 ⟨0x243F6A88, 0x85A308D3, 0x13198A2E, 0x03707344⟩ (0xA4093822, 0x299F31D0) =
    ⟨0xD16CFE09, 0x94FDCCEB, 0x5001E420, 0x24126EA1⟩ := by decide

structure StreamKey where
  seed : BitVec 64
  kernel : BitVec 32
  tile : BitVec 32
  deriving DecidableEq, Repr

/-- `Stream::at`. -/
def streamAt (key : StreamKey) (index : BitVec 64) : Counter :=
  philox4x32_10
    ⟨index.setWidth 32, (index >>> 32).setWidth 32, key.tile, key.kernel⟩
    (key.seed.setWidth 32, (key.seed >>> 32).setWidth 32)

end Philox

section Directions

def MAX_SOBOL_DIM : ℕ := 10

/-- Degree, coefficient bits and initial values of the dimensions from the second one on. -/
def JOE_KUO : List (ℕ × ℕ × List (BitVec 32)) :=
  [(1, 0, [1]), (2, 1, [1, 3]), (3, 1, [1, 3, 1]), (3, 2, [1, 1, 1]), (4, 1, [1, 1, 3, 3]),
    (4, 4, [1, 3, 5, 13]), (5, 2, [1, 1, 5, 5, 17]), (5, 4, [1, 1, 5, 5, 5]),
    (5, 7, [1, 1, 7, 11, 19])]

def vanDerCorput : List (BitVec 32) := (List.range 32).map fun k => (1 : BitVec 32) <<< (31 - k)

/-- `v[k]` from the directions before it. -/
def nextDirection (s a : ℕ) (m v : List (BitVec 32)) (k : ℕ) : BitVec 32 :=
  if k < s then m.getD k 0 <<< (31 - k)
  else
    (List.range' 1 (s - 1)).foldl
      (fun val i => if a.testBit (s - 1 - i) then val ^^^ v.getD (k - i) 0 else val)
      (v.getD (k - s) 0 ^^^ (v.getD (k - s) 0 >>> s))

def directionsUpTo (s a : ℕ) (m : List (BitVec 32)) : ℕ → List (BitVec 32)
  | 0 => []
  | k + 1 => directionsUpTo s a m k ++ [nextDirection s a m (directionsUpTo s a m k) k]

/-- The assertions on the initial values of a dimension. -/
def initialValuesOk (m : List (BitVec 32)) : Bool :=
  m.zipIdx.all fun entry => entry.1.toNat % 2 = 1 ∧ entry.1.toNat < 2 <<< entry.2

end Directions

structure Sobol where
  directions : List (List (BitVec 32))
  scramble : Option (BitVec 64)
  deriving DecidableEq, Repr

namespace Sobol

/-- The generator in some dimensions, `none` where an assertion fails. -/
def new (dim : ℕ) : Option Sobol :=
  if 1 ≤ dim ∧ dim ≤ MAX_SOBOL_DIM then
    let rows := JOE_KUO.take (dim - 1)
    if rows.all fun row => initialValuesOk row.2.2 then
      some ⟨vanDerCorput :: rows.map fun row => directionsUpTo row.1 row.2.1 row.2.2 32, none⟩
    else none
  else none

def scrambled (dim : ℕ) (seed : BitVec 64) : Option Sobol :=
  (new dim).map fun s => { s with scramble := some seed }

end Sobol

section Points

/-- A word for every dimension, digit and value of the digits above it. -/
abbrev Draw := BitVec 32 → ℕ → BitVec 32 → BitVec 32

/-- The words that the generator draws for a seed. -/
def philoxDraw (seed : BitVec 64) : Draw := fun dim b above =>
  (streamAt ⟨seed, 0x0E11, dim⟩ ((BitVec.ofNat 64 b <<< 32) ||| above.setWidth 64)).w0

/-- Every digit is flipped by the lowest bit of its word, the most significant one first. -/
def owenScramble (draw : Draw) (x dim : BitVec 32) : BitVec 32 :=
  (List.range 32).foldl (fun y b =>
    let bitPos := 31 - b
    let above : BitVec 32 := if b = 0 then 0 else x >>> (bitPos + 1)
    let flip := draw dim b above &&& 1
    let bit := ((x >>> bitPos) &&& 1) ^^^ flip
    y ||| (bit <<< bitPos)) 0

def grayCode (n : BitVec 32) : BitVec 32 := n ^^^ (n >>> 1)

/-- The directions of the bits that are set. -/
def combine (directions : List (BitVec 32)) (gray : BitVec 32) : BitVec 32 :=
  (List.range 32).foldl
    (fun x k => if gray.getLsbD k then x ^^^ directions.getD k 0 else x) 0

/-- One coordinate before it becomes a float. -/
def coordinate (s : Sobol) (scramble : Option Draw) (n : BitVec 32) (d : ℕ) : BitVec 32 :=
  let x := combine (s.directions.getD d []) (grayCode n)
  match scramble with
  | some draw => owenScramble draw x (BitVec.ofNat 32 d)
  | none => x

/-- The `n`-th point. All its coordinates are floats without rounding. -/
def pointWithScramble (s : Sobol) (scramble : Option Draw) (n : BitVec 32) : List ℚ :=
  (List.range s.directions.length).map fun d => (coordinate s scramble n d).toNat / 4294967296

def point (s : Sobol) (n : BitVec 32) : List ℚ :=
  pointWithScramble s (s.scramble.map philoxDraw) n

end Points

end FrankenSim.Qmc
