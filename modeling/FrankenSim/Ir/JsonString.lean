import FrankenSim.Ir.Ast

/-!
# Strings of the JSON syntax

The reader goes through the text scalar by scalar and decodes the escapes. The four digits
of a unicode escape are handed to an integer parser.
-/
namespace FrankenSim.Ir

/-- A byte position and the text from there on. -/
structure Cursor where
  pos : ℕ
  rest : Text
  deriving DecidableEq, Repr

def Cursor.stop (cur : Cursor) : ℕ := cur.pos + utf8Length cur.rest

namespace Json

def expect (cur : Cursor) (c : Char) (what : String) : Except IrError Cursor :=
  match cur.rest with
  | [] => .error ⟨⟨cur.pos, min (cur.pos + 1) cur.stop⟩, .jsonSyntax, "expected " ++ what,
      "check the JSON structure against the fs-ir mapping table"⟩
  | x :: rest =>
    if x = c then .ok ⟨cur.pos + 1, rest⟩
    else .error ⟨⟨cur.pos, min (cur.pos + 1) cur.stop⟩, .jsonSyntax, "expected " ++ what,
      "check the JSON structure against the fs-ir mapping table"⟩

def shortEscape : Char → Option Char
  | '"' => some '"'
  | '\\' => some '\\'
  | '/' => some '/'
  | 'n' => some '\n'
  | 't' => some '\t'
  | 'r' => some '\r'
  | 'b' => some '\x08'
  | 'f' => some '\x0c'
  | _ => none

def hexValue (c : Char) : Option ℕ :=
  if '0' ≤ c ∧ c ≤ '9' then some (c.toNat - '0'.toNat)
  else if 'a' ≤ c ∧ c ≤ 'f' then some (c.toNat - 'a'.toNat + 10)
  else if 'A' ≤ c ∧ c ≤ 'F' then some (c.toNat - 'A'.toNat + 10)
  else none

def hexNumber (digits : Text) : Option ℕ :=
  digits.foldlM (fun n c => (hexValue c).map fun v => n * 16 + v) 0

/-- `u16::from_str_radix(text, 16)`: a plus sign may stand in front of the digits. -/
def fromStrRadix16 (text : Text) : Option ℕ := do
  let digits := if text.head? = some '+' then text.tail else text
  guard (digits ≠ [])
  let value ← hexNumber digits
  guard (value < 2 ^ 16)
  some value

/-- So many bytes from the front, when they end between two scalars. -/
def sliceBytes : ℕ → Text → Option Text
  | 0, _ => some []
  | _ + 1, [] => none
  | n + 1, c :: rest =>
    if c.utf8Size ≤ n + 1 then (sliceBytes (n + 1 - c.utf8Size) rest).map (c :: ·) else none

/-- `char::from_u32`. -/
def charFromU32 (n : ℕ) : Option Char := if n.isValidChar then some (Char.ofNat n) else none

def uEscapeErr (span : Span) : IrError :=
  ⟨span, .badEscape, "malformed \\uXXXX escape or surrogate pair",
    "use one Unicode scalar or a high-surrogate/low-surrogate pair"⟩

/-- The low half of a surrogate pair, in the text behind the high half. -/
def readLow (pairSpan : Span) (code : ℕ) : Text → Except IrError (Char × ℕ)
  | '\\' :: 'u' :: lowDigits =>
    match (sliceBytes 4 lowDigits).bind fromStrRadix16 with
    | none => .error (uEscapeErr pairSpan)
    | some low =>
      if 0xDC00 ≤ low ∧ low ≤ 0xDFFF then
        match charFromU32 (0x10000 + (code - 0xD800) <<< 10 + (low - 0xDC00)) with
        | some c => .ok (c, 11)
        | none => .error (uEscapeErr pairSpan)
      else .error (uEscapeErr pairSpan)
  | _ => .error (uEscapeErr pairSpan)

/-- The escape behind a backslash at `pos`: its scalar, and how many scalars it takes. -/
def readEscape (pos stop : ℕ) : Text → Except IrError (Char × ℕ)
  | 'u' :: digits =>
    match (sliceBytes 4 digits).bind fromStrRadix16 with
    | none => .error (uEscapeErr ⟨pos, min (pos + 6) stop⟩)
    | some code =>
      if 0xD800 ≤ code ∧ code ≤ 0xDBFF then
        readLow ⟨pos, min (pos + 12) stop⟩ code (digits.drop 4)
      else if 0xDC00 ≤ code ∧ code ≤ 0xDFFF then
        .error (uEscapeErr ⟨pos, min (pos + 6) stop⟩)
      else
        match charFromU32 code with
        | some c => .ok (c, 5)
        | none => .error (uEscapeErr ⟨pos, min (pos + 6) stop⟩)
  | rest =>
    match rest.head?.bind shortEscape with
    | some c => .ok (c, 1)
    | none => .error ⟨⟨pos, min (pos + 2) stop⟩, .badEscape, "unknown escape sequence",
        "supported: \\ \" / \\n \\t \\r \\b \\f \\uXXXX (paired when surrogate-encoded)"⟩

/-- The scalars up to the closing quote. -/
def readScalars (start : ℕ) (pos : ℕ) (rest : Text) (out : Text) :
    Except IrError (Text × Span × Cursor) :=
  match rest with
  | [] => .error ⟨⟨start, pos⟩, .unclosedString, "string is never closed", "add the closing '\"'"⟩
  | c :: later =>
    if c = '"' then .ok (out, ⟨start, pos + 1⟩, ⟨pos + 1, later⟩)
    else if c = '\\' then
      match readEscape pos (pos + utf8Length rest) later with
      | .error e => .error e
      | .ok (scalar, taken) =>
        readScalars start (pos + 1 + taken) (later.drop taken) (out ++ [scalar])
    else if c.toNat < 0x20 then
      .error ⟨⟨pos, pos + 1⟩, .jsonSyntax, "unescaped control character in JSON string",
        "encode control characters with a JSON escape such as \\n or \\u000A"⟩
    else readScalars start (pos + c.utf8Size) later (out ++ [c])
termination_by rest.length
decreasing_by
  · simp
  · simp

/-- A string token: its text, its range and the position behind it. -/
def parseStringToken (cur : Cursor) : Except IrError (Text × Span × Cursor) := do
  let opened ← expect cur '"' "'\"' opening a string"
  readScalars cur.pos opened.pos opened.rest []

end Json

end FrankenSim.Ir
