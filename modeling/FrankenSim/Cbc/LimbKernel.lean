import FrankenSim.Library.Limbs
import FrankenSim.Library.Resumption

/-!
# The resumable limb kernel

Exact arithmetic on little-endian base-2³² limbs, one mutation cell after the other. A cursor
keeps a partially advanced operation, so that it can pause after any cell. Arithmetic on
machine words and accesses to vectors are checked: a fault is what would stop the program.
-/
namespace FrankenSim.Cbc

open Library

def LIMB_CURSOR_VERSION : ℕ := 1

/-- `2 ^ 32`. -/
def RADIX : ℕ := 4294967296

def USIZE_MAX : ℕ := 18446744073709551615

/-- What would stop the program: an index outside a vector, a machine word that overflows, a
branch that is marked unreachable, or a loop without end. -/
inductive Fault
  | index
  | overflow
  | unreachable
  | endless
  deriving DecidableEq, Repr

inductive ExactOpKind
  | zeroFill
  | addMultiplyCell
  | addMultiplyDrain
  deriving DecidableEq, Repr

structure LimbCursor where
  version : ℕ
  kind : ExactOpKind
  srcPos : ℕ
  factorPos : ℕ
  dstPos : ℕ
  fillTo : ℕ
  limit : ℕ
  carry : ℕ
  deriving DecidableEq, Repr

def beginAddMultiply (dstLen fillTo growTo : ℕ) : LimbCursor where
  version := LIMB_CURSOR_VERSION
  kind := if dstLen < fillTo then .zeroFill else .addMultiplyCell
  srcPos := 0
  factorPos := 0
  dstPos := dstLen
  fillTo := fillTo
  limit := growTo
  carry := 0

def factorLimbsLoop : ℕ → ℕ → List ℕ → ℕ → List ℕ × ℕ
  | 0, _, words, len => (words, len)
  | fuel + 1, remaining, words, len =>
    if remaining ≠ 0 then
      factorLimbsLoop fuel (remaining / RADIX) (words.set len (remaining % RADIX)) (len + 1)
    else (words, len)

/-- The limbs of a factor below `2 ^ 128`, and how many of the four words they take. -/
def factorLimbsU32 (factor : ℕ) : List ℕ × ℕ := factorLimbsLoop 4 factor [0, 0, 0, 0] 0

def limbAt (l : List ℕ) (i : ℕ) : Except Fault ℕ :=
  match l[i]? with
  | some x => .ok x
  | none => .error .index

/-- A value that has to fit a `u64`. -/
def fitsU64 (x : ℕ) : Except Fault ℕ := if x < RADIX * RADIX then .ok x else .error .overflow

/-- The limbs of a vector and a cursor. -/
structure KernelState where
  dst : List ℕ
  cursor : LimbCursor
  deriving DecidableEq, Repr

/-- `if d >= dst.len()` `dst.push(0)`. -/
def grown (dst : List ℕ) (d : ℕ) : List ℕ := if dst.length ≤ d then dst ++ [0] else dst

/-- One turn of the loop of `step_add_multiply`. -/
def turn (src words : List ℕ) (factorLen : ℕ) (s : KernelState) :
    Except Fault (Turn KernelState) :=
  let dst := s.dst
  let cursor := s.cursor
  match cursor.kind with
  | .zeroFill =>
    if cursor.fillTo ≤ cursor.dstPos then
      .ok (.next ⟨dst, { cursor with kind := .addMultiplyCell, dstPos := 0 }⟩)
    else if cursor.dstPos = dst.length then
      .ok (.cell ⟨dst ++ [0], { cursor with dstPos := cursor.dstPos + 1 }⟩)
    else do
      let _ ← limbAt dst cursor.dstPos
      .ok (.cell ⟨dst.set cursor.dstPos 0, { cursor with dstPos := cursor.dstPos + 1 }⟩)
  | .addMultiplyCell =>
    if factorLen ≤ cursor.factorPos then
      .ok (.next ⟨dst,
        { cursor with kind := .addMultiplyDrain, dstPos := cursor.srcPos + factorLen }⟩)
    else
      let destination := cursor.srcPos + cursor.factorPos
      if dst.length ≤ destination ∧ cursor.limit ≤ destination then .ok .refused
      else do
        let dst := grown dst destination
        let a ← limbAt src cursor.srcPos
        let f ← limbAt words cursor.factorPos
        let d ← limbAt dst destination
        let wide ← fitsU64 (a * f + d + cursor.carry)
        .ok (.cell ⟨dst.set destination (wide % RADIX),
          { cursor with carry := wide / RADIX, factorPos := cursor.factorPos + 1 }⟩)
  | .addMultiplyDrain =>
    if src.length ≤ cursor.srcPos then .ok (.complete s)
    else if cursor.carry = 0 then
      let cursor := { cursor with srcPos := cursor.srcPos + 1, factorPos := 0, carry := 0 }
      if src.length ≤ cursor.srcPos then .ok (.complete ⟨dst, cursor⟩)
      else .ok (.next ⟨dst, { cursor with kind := .addMultiplyCell }⟩)
    else
      let d := cursor.dstPos
      if dst.length ≤ d ∧ cursor.limit ≤ d then .ok .refused
      else do
        let dst := grown dst d
        let x ← limbAt dst d
        let wide ← fitsU64 (x + cursor.carry)
        .ok (.cell ⟨dst.set d (wide % RADIX),
          { cursor with carry := wide / RADIX, dstPos := d + 1 }⟩)

/-- More than the turns that the loop can take. -/
def turnBound (src : List ℕ) (factorLen : ℕ) (cursor : LimbCursor) : ℕ :=
  cursor.fillTo + (src.length + 1) * (factorLen + cursor.limit + 3) + 3

/-- Advance an add-multiply by at most `budget` mutation cells. -/
def stepAddMultiply (src words : List ℕ) (factorLen : ℕ) (s : KernelState) (budget : ℕ) :
    Except Fault (KernelState × StepOutcome) :=
  if s.cursor.version ≠ LIMB_CURSOR_VERSION ∨ src.length < s.cursor.srcPos ∨
      factorLen < s.cursor.factorPos ∨ s.cursor.limit < s.cursor.dstPos ∨
      s.cursor.limit < s.cursor.fillTo then
    .ok (s, .refused)
  else if src = [] ∨ factorLen = 0 then .ok (s, .complete 0)
  else turns (turn src words factorLen) .endless budget (turnBound src factorLen s.cursor) 0 s

def addMultiplyCommitted (cursor : LimbCursor) (srcLen : ℕ) : Bool :=
  srcLen ≤ cursor.srcPos ∧ cursor.kind = .addMultiplyDrain ∧ cursor.carry = 0

def compareLoop (a b : List ℕ) : ℕ → ℕ → Except Fault (Option Ordering × ℕ)
  | 0, _ => .ok (some .eq, 0)
  | pos + 1, 0 => .ok (none, pos + 1)
  | pos + 1, budget + 1 => do
    let x ← limbAt a pos
    let y ← limbAt b pos
    match compare x y with
    | .eq => compareLoop a b pos budget
    | other => .ok (some other, pos)

/-- Advance a comparison by at most `budget` observations. -/
def stepCompare (a b : List ℕ) (pos budget : ℕ) : Except Fault (Option Ordering × ℕ) :=
  match compare a.length b.length with
  | .eq => compareLoop a b pos budget
  | other => .ok (some other, pos)

/-- Advance a normalization by at most `budget` pops; the number of limbs popped. -/
def stepNormalize (dst : List ℕ) : ℕ → List ℕ × ℕ
  | 0 => (dst, 0)
  | budget + 1 =>
    if dst.getLast? = some 0 then
      let (dst', popped) := stepNormalize dst.dropLast budget
      (dst', popped + 1)
    else (dst, 0)

end FrankenSim.Cbc
