import FrankenSim.Ir.Counts

/-!
# Trees of programs

A node is an atom or a list of nodes, with the range of the source text it came from. A
refusal names a range too, and what to do about it.
-/
namespace FrankenSim.Ir

/-- Scalars of a source text. -/
abbrev Text := List Char

/-- A byte range of the source text. -/
structure Span where
  start : ℕ
  stop : ℕ
  deriving DecidableEq, Repr

inductive IrErrorKind
  | unexpectedChar
  | unexpectedEnd
  | trailingInput
  | unclosedParen
  | unclosedString
  | badEscape
  | badKeyword
  | badNumber
  | badSeed
  | badQuantity
  | tooDeep
  | jsonSyntax
  | jsonUnknownTag
  | jsonTagMismatch
  | malformedClause
  deriving DecidableEq, Repr

/-- A refusal: where, what is wrong and how to fix it. -/
structure IrError where
  span : Span
  kind : IrErrorKind
  detail : String
  hint : String
  deriving DecidableEq, Repr

/-- Meanings of the leaves, over the floating-point numbers and the dimensions. -/
inductive Atom (F D : Type)
  | int (value : ℤ)
  | float (value : F)
  | qty (value : F) (dims : D) (text : Text)
  | count (value : CountValue) (unit : CountUnit)
  | seed (value : ℕ)
  | str (text : Text)
  | symbol (text : Text)
  | keyword (text : Text)
  deriving DecidableEq

inductive Node (F D : Type)
  | atom (kind : Atom F D) (span : Span)
  | list (items : List (Node F D)) (span : Span)

/-- What the classifier takes from elsewhere: the reader of floating-point numbers, the reader
of quantities, and the quoted form of a text. -/
structure Readers (F D : Type) where
  parseF64 : Text → Option F
  isFinite : F → Bool
  parseQty : Text → Except String (F × D)
  debug : Text → String

def utf8Length (text : Text) : ℕ := (text.map Char.utf8Size).sum

theorem utf8Length_append (a b : Text) : utf8Length (a ++ b) = utf8Length a + utf8Length b := by
  simp [utf8Length]

theorem utf8Length_cons (c : Char) (text : Text) :
    utf8Length (c :: text) = c.utf8Size + utf8Length text := rfl

theorem utf8Length_nil : utf8Length [] = 0 := rfl

def takeBytes : ℕ → Text → Text
  | _, [] => []
  | n, c :: rest => if c.utf8Size ≤ n then c :: takeBytes (n - c.utf8Size) rest else []

end FrankenSim.Ir
