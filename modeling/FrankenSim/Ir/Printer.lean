import FrankenSim.Ir.Spans
import FrankenSim.Library.Radix

/-!
# The printers of the two syntaxes

Both printers go through a tree that was validated. They differ in what an atom is written
as, in the brackets, and in what stands between two items. A quantity is written in base
units, whatever its source text was.
-/
namespace FrankenSim.Ir

open Library

variable {F D : Type}

/-- The suffix that a unit is written as. -/
def CountUnit.suffix : CountUnit → Text
  | .b => "B".toList
  | .kib => "KiB".toList
  | .mib => "MiB".toList
  | .gib => "GiB".toList
  | .cores => "cores".toList

/-- A sign, the significand and the exponent, which is written also when it is zero. -/
def DecimalCount.canonical (d : DecimalCount) : Text :=
  (if d.negative then ['-'] else []) ++ (decimalText d.significand ++ 'e' :: integerText d.exponent10)

def CountValue.literal : CountValue → Text
  | .exact value => decimalText value
  | .fractional decimal => decimal.canonical

def hexDigit (d : ℕ) : Char :=
  if d < 10 then Char.ofNat ('0'.toNat + d) else Char.ofNat ('A'.toNat + (d - 10))

def hexText (n : ℕ) : Text := (radixDigits 16 n).map hexDigit

def seedText (v : ℕ) : Text := '0' :: 'x' :: hexText v

/-- Exponents of the base units. -/
structure Dims where
  m : ℤ
  kg : ℤ
  s : ℤ
  k : ℤ
  a : ℤ
  mol : ℤ
  deriving DecidableEq, Repr

namespace Dims

def isNone (dims : Dims) : Bool := dims == ⟨0, 0, 0, 0, 0, 0⟩

/-- The factors in their order; a base unit with exponent zero is none. -/
def parts (dims : Dims) : List Text :=
  [("kg", dims.kg), ("m", dims.m), ("s", dims.s), ("K", dims.k), ("A", dims.a),
    ("mol", dims.mol)].filterMap fun (symbol, e) =>
      if e = 0 then none
      else if e = 1 then some symbol.toList
      else some (symbol.toList ++ '^' :: integerText e)

def unitString (dims : Dims) : Text :=
  if dims.parts = [] then ['1'] else ['·'].intercalate dims.parts

/-- The unit of a quantity; one without dimensions is an angle. -/
def canonicalUnit (dims : Dims) : Text := if dims.isNone then "rad".toList else dims.unitString

end Dims

/-- How a printer writes atoms and lists. -/
structure Layout (F D : Type) where
  atom : Span → Atom F D → Except IrError Text
  opening : Char
  separator : Char
  closing : Char

section Lists

variable (P : Layout F D)

mutual

def Node.printInto : Node F D → Except IrError Text
  | .atom kind span => P.atom span kind
  | .list items _ => (printItems true items).map fun text => P.opening :: (text ++ [P.closing])

def printItems : Bool → List (Node F D) → Except IrError Text
  | _, [] => .ok []
  | first, item :: items =>
    match item.printInto with
    | .error e => .error e
    | .ok text => (printItems false items).map fun rest =>
        (if first then [] else [P.separator]) ++ (text ++ rest)

end

/-- The text of a valid tree. -/
def printChecked [DecidableEq D] (K : Codec F D) (node : Node F D) : Except IrError Text := do
  node.validate K
  node.printInto P

end Lists

section Syntaxes

variable [DecidableEq D] (K : Codec F D)

namespace Sexpr

/-- A scalar of a string literal. -/
def escaped (c : Char) : Text :=
  if c = '"' then ['\\', '"']
  else if c = '\\' then ['\\', '\\']
  else if c = '\n' then ['\\', 'n']
  else if c = '\t' then ['\\', 't']
  else [c]

def quoted (s : Text) : Text := '"' :: (s.flatMap escaped ++ ['"'])

def printAtom (span : Span) : Atom F D → Except IrError Text
  | .int i => .ok (integerText i)
  | .float f => .ok (K.debugF64 f)
  | .qty value dims _ => canonicalQuantityText K value dims span
  | .count value unit => .ok (value.literal ++ unit.suffix)
  | .seed v => .ok (seedText v)
  | .str s => .ok (quoted s)
  | .symbol s => .ok s
  | .keyword k => .ok (':' :: k)

def layout : Layout F D := ⟨printAtom K, '(', ' ', ')'⟩

def print (node : Node F D) : Except IrError Text := printChecked (layout K) K node

end Sexpr

namespace Json

/-- A scalar of a string; the other control characters take four digits. -/
def escaped (c : Char) : Text :=
  if c = '"' then ['\\', '"']
  else if c = '\\' then ['\\', '\\']
  else if c = '\n' then ['\\', 'n']
  else if c = '\t' then ['\\', 't']
  else if c = '\r' then ['\\', 'r']
  else if c.toNat < 0x20 then '\\' :: 'u' :: (hexText c.toNat).leftpad 4 '0'
  else [c]

def printJsonString (s : Text) : Text := '"' :: (s.flatMap escaped ++ ['"'])

def object (tag : String) (value : Text) : Text :=
  '\x7b' :: ('"' :: (tag.toList ++ '"' :: ':' :: (value ++ ['\x7d'])))

def printAtom (span : Span) : Atom F D → Except IrError Text
  | .int i => .ok (object "i" (integerText i))
  | .float f => .ok (object "f" (K.debugF64 f))
  | .qty value dims _ =>
    (canonicalQuantityText K value dims span).map fun text => object "q" (printJsonString text)
  | .count value unit => .ok (object "c" (printJsonString (value.literal ++ unit.suffix)))
  | .seed v => .ok (object "seed" ('"' :: (seedText v ++ ['"'])))
  | .str s => .ok (object "s" (printJsonString s))
  | .symbol s => .ok (object "sym" (printJsonString s))
  | .keyword k => .ok (object "kw" (printJsonString k))

def layout : Layout F D := ⟨printAtom K, '[', ',', ']'⟩

def print (node : Node F D) : Except IrError Text := printChecked (layout K) K node

end Json

end Syntaxes

end FrankenSim.Ir
