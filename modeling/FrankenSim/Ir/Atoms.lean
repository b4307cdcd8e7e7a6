import FrankenSim.Ir.Numerals
import FrankenSim.Ir.JsonString

/-!
# Atoms and the validation of trees

A token is a keyword, a seed, a number or a symbol. A tree is validated node by
node: spans are ordered, nesting is capped and every atom can be written. None of
it depends on where in the source the atom stands.
-/
namespace FrankenSim.Ir

open Library

variable {F D : Type}

def MAX_DEPTH : ℕ := 256

def isAsciiWhitespace (c : Char) : Bool :=
  c == ' ' || c == '\t' || c == '\n' || c == '\x0c' || c == '\r'

def isAtomDelimiter (c : Char) : Bool :=
  isAsciiWhitespace c || c == '(' || c == ')' || c == '"' || c == ';'

def digitAt (text : Text) (i : ℕ) : Bool := (text[i]?).any Char.isDigit

/-- Numeric lead: 5, .5, -5, +5, -.5 and +.5. -/
def numericLead (text : Text) : Bool :=
  digitAt text 0 ||
    ((text[0]? == some '-' || text[0]? == some '+') &&
      (digitAt text 1 || (text[1]? == some '.' && digitAt text 2))) ||
    (text[0]? == some '.' && digitAt text 1)

/-- `u64::from_str_radix(hex, 16)`: a plus sign may stand in front of the digits. -/
def parseSeed (hex : Text) : Option ℕ := do
  let digits := if hex.head? = some '+' then hex.tail else hex
  guard (digits ≠ [])
  let value ← Json.hexNumber digits
  guard (value < 2 ^ 64)
  some value

/-- The token behind `0x` or `0X`. -/
def stripSeedMark : Text → Option Text
  | '0' :: 'x' :: hex => some hex
  | '0' :: 'X' :: hex => some hex
  | _ => none

def classifyAtom (R : Readers F D) (text : Text) (span : Span) : Except IrError (Node F D) :=
  match text with
  | [] => .error ⟨span, .unexpectedChar, "empty token (stray delimiter byte)",
      "remove the stray character"⟩
  | ':' :: name =>
    if name = [] then
      .error ⟨span, .badKeyword, "bare ':' is not a keyword", "keywords are :name"⟩
    else .ok (.atom (.keyword name) span)
  | text =>
    match stripSeedMark text with
    | some hex =>
      match parseSeed hex with
      | some v => .ok (.atom (.seed v) span)
      | none => .error ⟨span, .badSeed, tokenPreview R text ++ " is not a valid 64-bit hex seed",
          "seeds are 0x-prefixed hex fitting u64, e.g. 0x5EED0001"⟩
    | none =>
      if numericLead text then classifyNumeric R text span
      else .ok (.atom (.symbol text) span)

/-- What the validation takes from elsewhere besides the readers: the bits of a float,
its text, and the unit of a dimension vector. -/
structure Codec (F D : Type) extends Readers F D where
  toBits : F → ℕ
  debugF64 : F → Text
  unitText : D → Text

section Validation

variable [DecidableEq D] (K : Codec F D)

def canonicalQuantityText (value : F) (dims : D) (span : Span) : Except IrError Text :=
  if !K.isFinite value then
    .error ⟨span, .badQuantity, "cannot encode a non-finite canonical quantity",
      "use a finite SI-base value"⟩
  else
    let text := K.debugF64 value ++ K.unitText dims
    match K.parseQty text with
    | .error error => .error ⟨span, .badQuantity,
        "dimension vector has no canonical fs-qty encoding: " ++ error,
        "keep every base-unit exponent within fs-qty's supported range"⟩
    | .ok (value', dims') =>
      if K.toBits value' ≠ K.toBits value ∨ dims' ≠ dims then
        .error ⟨span, .badQuantity,
          "canonical quantity encoding changed its value or dimensions",
          "report this fs-qty canonicalization defect"⟩
      else .ok text

def validationError (span : Span) (kind : IrErrorKind) (path detail hint : String) : IrError :=
  ⟨span, kind, "invalid AST at " ++ path ++ ": " ++ detail, hint⟩

def validKeyword (keyword : Text) : Bool := !keyword.isEmpty && !keyword.any isAtomDelimiter

def validSymbol (symbol : Text) : Bool :=
  if symbol.isEmpty || symbol.any isAtomDelimiter || symbol.head? == some ':' ||
    (stripSeedMark symbol).isSome then false
  else !numericLead symbol

def validateAtom (path : String) (span : Span) : Atom F D → Except IrError Unit
  | .float value =>
    if !K.isFinite value then
      .error (validationError span .badNumber path "floating-point atom is not finite"
        "use a finite f64 literal")
    else .ok ()
  | .qty value dims text =>
    if !K.isFinite value then
      .error (validationError span .badQuantity path "quantity value is not finite"
        "use a finite SI-base value")
    else if text.isEmpty || text.any isAtomDelimiter then
      .error (validationError span .badQuantity path "quantity source text is not one complete atom"
        "use Node::quantity or one whitespace-free fs-qty literal")
    else
      match K.parseQty text with
      | .error error => .error (validationError span .badQuantity path
          ("quantity source text is invalid: " ++ error)
          "use Node::quantity or a valid fs-qty literal")
      | .ok (value', dims') =>
        if K.toBits value' ≠ K.toBits value ∨ dims' ≠ dims then
          .error (validationError span .badQuantity path
            "quantity source text does not encode its stored value and dimensions"
            "rebuild the atom with Node::quantity")
        else (canonicalQuantityText K value dims span).map fun _ => ()
  | .symbol symbol =>
    if !validSymbol symbol then
      .error (validationError span .unexpectedChar path
        "symbol cannot round-trip as one symbol atom"
        "use a nonnumeric, non-keyword atom without whitespace or delimiters")
    else .ok ()
  | .keyword keyword =>
    if !validKeyword keyword then
      .error (validationError span .badKeyword path
        "keyword cannot round-trip as one keyword atom"
        "use a nonempty keyword without whitespace or delimiters")
    else .ok ()
  | .int _ | .count _ _ | .seed _ | .str _ => .ok ()

def Node.span : Node F D → Span
  | .atom _ span => span
  | .list _ span => span

/-- The checks that every node begins with. -/
def validateHead (depth : ℕ) (path : String) (span : Span) : Except IrError Unit :=
  if span.stop < span.start then
    .error ⟨⟨span.stop, span.start⟩, .malformedClause,
      "invalid AST at " ++ path ++ ": span start " ++ toString span.start ++ " exceeds end " ++
        toString span.stop,
      "store spans as ordered half-open byte ranges"⟩
  else if MAX_DEPTH < depth then
    .error (validationError span .tooDeep path
      ("nesting exceeds the " ++ toString MAX_DEPTH ++ "-level cap")
      "flatten the tree before serialization")
  else .ok ()

mutual

def Node.validateAt (depth : ℕ) (path : String) : Node F D → Except IrError Unit
  | .atom kind span =>
    match validateHead depth path span with
    | .error e => .error e
    | .ok () => validateAtom K path span kind
  | .list items span =>
    match validateHead depth path span with
    | .error e => .error e
    | .ok () => validateItems depth path 0 items

/-- The children in their order, at one level more. -/
def validateItems (depth : ℕ) (path : String) (index : ℕ) :
    List (Node F D) → Except IrError Unit
  | [] => .ok ()
  | item :: items =>
    match item.validateAt (depth + 1) (path ++ "[" ++ toString index ++ "]") with
    | .error e => .error e
    | .ok () => validateItems depth path (index + 1) items

end

def Node.validate (node : Node F D) : Except IrError Unit := node.validateAt K 0 "$"

def Atom.sameShape : Atom F D → Atom F D → Bool
  | .int a, .int b => a == b
  | .float a, .float b => K.toBits a == K.toBits b
  | .qty a da _, .qty b db _ => K.toBits a == K.toBits b && da == db
  | .count a ua, .count b ub => a == b && ua == ub
  | .seed a, .seed b => a == b
  | .str a, .str b => a == b
  | .symbol a, .symbol b => a == b
  | .keyword a, .keyword b => a == b
  | _, _ => false

mutual

/-- Equality of trees up to spans and the presentation of quantities. -/
def Node.sameShape : Node F D → Node F D → Bool
  | .atom a _, .atom b _ => a.sameShape K b
  | .list as _, .list bs _ => sameShapes as bs
  | _, _ => false

def sameShapes : List (Node F D) → List (Node F D) → Bool
  | [], [] => true
  | a :: as, b :: bs => a.sameShape b && sameShapes as bs
  | _, _ => false

end

end Validation

section Positions

theorem Atom.sameShape_refl [DecidableEq D] (K : Codec F D) (a : Atom F D) :
    a.sameShape K a = true := by
  cases a <;> simp [Atom.sameShape]

/-- A reading that yields one atom, the same one at every span, or refuses the span. -/
structure Located (read : Span → Except IrError (Node F D)) : Prop where
  same : ∀ span node, read span = .ok node →
    ∃ kind, node = .atom kind span ∧ ∀ span', read span' = .ok (.atom kind span')
  refused : ∀ span e, read span = .error e → e.span = span

theorem located_ok (kind : Atom F D) : Located fun span => .ok (.atom kind span) := by
  constructor
  · intro span node h
    exact ⟨kind, (Except.ok.inj h).symm, fun _ => rfl⟩
  · intro span e h
    cases h

theorem located_error {e : Span → IrError} (he : ∀ span, (e span).span = span) :
    Located (fun span => .error (e span) : Span → Except IrError (Node F D)) := by
  constructor
  · intro span node h
    cases h
  · intro span e' h
    cases h
    exact he span

theorem located_ite {c : Prop} [Decidable c] {read read' : Span → Except IrError (Node F D)}
    (h : Located read) (h' : Located read') :
    Located fun span => if c then read span else read' span := by
  by_cases hc : c
  · simpa only [if_pos hc] using h
  · simpa only [if_neg hc] using h'

theorem classifyQuantity_located (R : Readers F D) (text : Text) :
    Located (classifyQuantity R text) := by
  unfold classifyQuantity
  cases R.parseQty text with
  | error e => exact located_error fun _ => rfl
  | ok quantity => exact located_ok _

theorem classifyNumeric_located (R : Readers F D) (text : Text) :
    Located (classifyNumeric R text) := by
  unfold classifyNumeric
  cases parseI64 text with
  | some i => exact located_ok _
  | none =>
    cases R.parseF64 text with
    | some f => exact located_ite (located_ok _) (located_error fun _ => rfl)
    | none =>
      cases countSuffixes.findSome? fun s =>
        (stripSuffix s.1 text).map fun digits => (digits, s.2) with
      | none => exact classifyQuantity_located R text
      | some count =>
        apply located_ite
        · cases checkedU128 (digitsValue count.1) with
          | some v => exact located_ok _
          | none => exact located_error fun _ => rfl
        · cases DecimalCount.parse count.1 with
          | some value => exact located_ok _
          | none => exact classifyQuantity_located R text

theorem classifyAtom_located (R : Readers F D) (text : Text) : Located (classifyAtom R text) := by
  unfold classifyAtom
  split
  · exact located_error fun _ => rfl
  · exact located_ite (located_error fun _ => rfl) (located_ok _)
  · cases stripSeedMark text with
    | some hex =>
      dsimp only
      cases parseSeed hex with
      | some v => exact located_ok _
      | none => exact located_error fun _ => rfl
    | none => exact located_ite (classifyNumeric_located R text) (located_ok _)

end Positions

end FrankenSim.Ir
