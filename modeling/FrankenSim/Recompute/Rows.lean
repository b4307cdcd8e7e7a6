import FrankenSim.Library.Lines
import FrankenSim.Recompute.Store
import Mathlib.Data.Int.Log

/-!
# Ledger rows

A stored node is written as one row of JSON. Strings of the caller are escaped,
so that a row never contains a line break, whatever its record holds. Floats are
written in the scientific form of their type.
-/
namespace FrankenSim.Recompute

open Library

abbrev Text := List Char

/-- The scientific form of a finite float: its sign, its significant digits, of
which 17 are after the point, and its exponent. -/
class ScientificForm (F : Type*) where
  scientific : F → Bool × ℕ × ℤ

export ScientificForm (scientific)

/-- An exact number is rounded to 18 significant digits. -/
instance : ScientificForm ExactFloat where
  scientific
    | .fin q =>
      if q = 0 then (false, 0, 0)
      else
        let exponent := Int.log 10 |q|
        let digits := (round (|q| / (10 : ℚ) ^ (exponent - 17))).toNat
        if digits = 10 ^ 18 then (decide (q < 0), 10 ^ 17, exponent + 1)
        else (decide (q < 0), digits, exponent)
    | _ => (false, 0, 0)

def decimalText (n : ℕ) : Text := Nat.toDigits 10 n

def intText (i : ℤ) : Text := if i < 0 then '-' :: decimalText i.natAbs else decimalText i.natAbs

/-- Hexadecimal digits at fixed places. -/
def hexText (digit : ℕ → Char) (width n : ℕ) : Text :=
  (List.range width).reverse.map fun place => digit (n / 16 ^ place % 16)

def upperHexDigit (d : ℕ) : Char := (hexDigit d).toUpper

def bitsText (bits : UInt64) : Text := hexText upperHexDigit 16 bits.toNat

def jsonEscape (ch : Char) : Text :=
  if ch = '"' then ['\\', '"']
  else if ch = '\\' then ['\\', '\\']
  else if ch = '\x08' then ['\\', 'b']
  else if ch = '\x0c' then ['\\', 'f']
  else if ch = '\n' then ['\\', 'n']
  else if ch = '\r' then ['\\', 'r']
  else if ch = '\t' then ['\\', 't']
  else if ch.toNat ≤ 0x1f then ['\\', 'u'] ++ hexText hexDigit 4 ch.toNat
  else [ch]

def jsonString (value : String) : Text := '"' :: (value.toList.flatMap jsonEscape ++ ['"'])

section

variable {F : Type} [FloatOps F] [ScientificForm F]

/-- One digit, the point and 17 digits, and the exponent. -/
def scientificText (value : F) : Text :=
  let (negative, digits, exponent) := scientific value
  let text := decimalText digits
  let padded := List.replicate (18 - text.length) '0' ++ text
  (if negative then ['-'] else []) ++ padded.take 1 ++ ['.'] ++ padded.drop 1 ++ ['e'] ++
    intText exponent

def jsonF64 (value : F) : Text :=
  if FloatOps.isFinite value then scientificText value else "null".toList

def NODE_RECORD_IDENTITY_VERSION : ℕ := 2

def paramText (param : Param) : Text :=
  match param.2 with
  | .f64 bits => "\x7b\"key\":".toList ++ jsonString param.1 ++
      ",\"kind\":\"f64\",\"bits\":\"".toList ++ bitsText bits ++ "\"\x7d".toList
  | .int value => "\x7b\"key\":".toList ++ jsonString param.1 ++
      ",\"kind\":\"int\",\"value\":".toList ++ intText value.toInt ++ "\x7d".toList
  | .str value => "\x7b\"key\":".toList ++ jsonString param.1 ++
      ",\"kind\":\"string\",\"value\":".toList ++ jsonString value ++ "\x7d".toList

variable [HashBytes]

/-- The canonical ledger row of a record whose artifact has the given address. -/
def NodeRecord.toRowWithArtifactIdentity (record : NodeRecord F) (artifact : ContentHash) : Text :=
  let inputHashes := [','].intercalate
    (record.inputHashes.map fun h => ['"'] ++ h.toHex.toList ++ ['"'])
  let params := [','].intercalate ((sortParams record.params).map paramText)
  let slack := record.slack
  List.flatten [
    "\x7b\"op\":".toList, jsonString record.opId,
    ",\"node\":\"".toList, record.contentHash.toHex.toList,
    "\",\"artifact\":\"".toList, artifact.toHex.toList,
    "\",\"node_identity\":\x7b\"version\":".toList, decimalText NODE_RECORD_IDENTITY_VERSION,
    ",\"domain\":".toList, jsonString NODE_RECORD_IDENTITY_DOMAIN,
    "\x7d,\"artifact_identity\":\x7b\"version\":".toList,
    decimalText ARTIFACT_CONTENT_IDENTITY_VERSION.toNat,
    ",\"domain\":".toList, jsonString ARTIFACT_CONTENT_IDENTITY_DOMAIN,
    "\x7d,\"input_hashes\":[".toList, inputHashes,
    "],\"params\":[".toList, params,
    "],\"code_version\":\"".toList, record.codeVersionHash.toHex.toList,
    "\",\"seed\":".toList, decimalText record.rngSeed.toNat,
    ",\"achieved\":".toList, jsonF64 record.achievedError,
    ",\"achieved_bits\":\"".toList, bitsText (FloatOps.toBits record.achievedError),
    "\",\"required\":".toList, jsonF64 record.requiredTolerance,
    ",\"required_bits\":\"".toList, bitsText (FloatOps.toBits record.requiredTolerance),
    "\",\"slack\":".toList, jsonF64 slack,
    ",\"slack_bits\":\"".toList, bitsText (FloatOps.toBits slack),
    "\"\x7d".toList]

end

section LineBreaks

theorem newline_not_mem_decimalText (n : ℕ) : '\n' ∉ decimalText n := by
  intro h
  exact absurd (Nat.isDigit_of_mem_toDigits (by decide) (by decide) h) (by decide)

theorem newline_not_mem_intText (i : ℤ) : '\n' ∉ intText i := by
  unfold intText
  split
  · simpa using newline_not_mem_decimalText i.natAbs
  · exact newline_not_mem_decimalText i.natAbs

theorem newline_not_mem_hexText {digit : ℕ → Char} (h : ∀ d < 16, digit d ≠ '\n') (width n : ℕ) :
    '\n' ∉ hexText digit width n := by
  intro hmem
  obtain ⟨place, -, hplace⟩ := List.mem_map.1 hmem
  exact h _ (Nat.mod_lt _ (by decide)) hplace

theorem newline_not_mem_bitsText (bits : UInt64) : '\n' ∉ bitsText bits :=
  newline_not_mem_hexText (by decide) 16 bits.toNat

theorem newline_not_mem_toHex (h : ContentHash) : '\n' ∉ h.toHex.toList := by
  have hdigit : ∀ d < 16, hexDigit d ≠ '\n' := by decide
  simp only [ContentHash.toHex, String.toList_ofList, List.mem_flatMap, List.mem_cons,
    List.not_mem_nil, or_false, not_exists, not_and, not_or]
  intro b _
  have hb := b.toNat_lt
  exact ⟨Ne.symm (hdigit _ (by omega)), Ne.symm (hdigit _ (by omega))⟩

/-- No escape contains a line break, that of the line break included. -/
theorem newline_not_mem_jsonEscape (ch : Char) : '\n' ∉ jsonEscape ch := by
  unfold jsonEscape
  split_ifs with hquote hslash hback hfeed hline hreturn htab hcontrol
  all_goals try decide
  · have hhex := @newline_not_mem_hexText hexDigit (by decide) 4 ch.toNat
    simpa using hhex
  · simpa using Ne.symm hline

theorem newline_not_mem_jsonString (value : String) : '\n' ∉ jsonString value := by
  simp only [jsonString, List.mem_cons, List.mem_append, List.mem_flatMap, List.not_mem_nil, or_false,
    not_or, not_exists, not_and]
  exact ⟨by decide, fun ch _ => newline_not_mem_jsonEscape ch, by decide⟩

theorem newline_not_mem_intercalate {parts : List Text} (h : ∀ part ∈ parts, '\n' ∉ part) :
    '\n' ∉ [','].intercalate parts := by
  induction parts with
  | nil => simp [List.intercalate]
  | cons part parts ih =>
    obtain ⟨hpart, hparts⟩ := List.forall_mem_cons.1 h
    cases parts with
    | nil => simpa [List.intercalate] using hpart
    | cons next parts =>
      have hrest := ih hparts
      simp only [List.intercalate, List.intersperse_cons_cons, List.flatten_cons, List.mem_append] at hrest ⊢
      simp only [hpart, hrest, or_false, false_or]
      decide

theorem newline_not_mem_flatten {parts : List Text} (h : ∀ part ∈ parts, '\n' ∉ part) :
    '\n' ∉ parts.flatten := by
  intro hmem
  obtain ⟨part, hpart, hline⟩ := List.mem_flatten.1 hmem
  exact h part hpart hline

variable {F : Type} [FloatOps F] [ScientificForm F]

theorem newline_not_mem_jsonF64 (value : F) : '\n' ∉ jsonF64 value := by
  unfold jsonF64
  split
  · have hpadded : ∀ digits : ℕ, '\n' ∉ List.replicate (18 - (decimalText digits).length) '0' ++
        decimalText digits := by
      intro digits
      have hdigits := newline_not_mem_decimalText digits
      simp [hdigits]
    simp only [scientificText, List.mem_append, not_or]
    refine ⟨⟨⟨⟨⟨?_, ?_⟩, by decide⟩, ?_⟩, by decide⟩, newline_not_mem_intText _⟩
    · split <;> decide
    · exact fun hmem => hpadded _ (List.mem_of_mem_take hmem)
    · exact fun hmem => hpadded _ (List.mem_of_mem_drop hmem)
  · decide

theorem newline_not_mem_paramText (param : Param) : '\n' ∉ paramText param := by
  have hkey := newline_not_mem_jsonString param.1
  unfold paramText
  cases param.2 with
  | f64 bits =>
    have hbits := newline_not_mem_bitsText bits
    simp [hkey, hbits]
  | int value =>
    have hvalue := newline_not_mem_intText value.toInt
    simp [hkey, hvalue]
  | str value =>
    have hvalue := newline_not_mem_jsonString value
    simp [hkey, hvalue]

variable [HashBytes]

/-- A row is one line, whatever strings its record holds. -/
theorem newline_not_mem_row (record : NodeRecord F) (artifact : ContentHash) :
    '\n' ∉ record.toRowWithArtifactIdentity artifact := by
  have hinputs : '\n' ∉ [','].intercalate
      (record.inputHashes.map fun h => ['"'] ++ h.toHex.toList ++ ['"']) := by
    apply newline_not_mem_intercalate
    rintro part hpart
    obtain ⟨h, -, rfl⟩ := List.mem_map.1 hpart
    simpa using newline_not_mem_toHex h
  have hparams : '\n' ∉ [','].intercalate ((sortParams record.params).map paramText) := by
    apply newline_not_mem_intercalate
    rintro part hpart
    obtain ⟨param, -, rfl⟩ := List.mem_map.1 hpart
    exact newline_not_mem_paramText param
  unfold NodeRecord.toRowWithArtifactIdentity
  apply newline_not_mem_flatten
  simp only [List.forall_mem_cons, hinputs, hparams, newline_not_mem_jsonString,
    newline_not_mem_toHex, newline_not_mem_decimalText, newline_not_mem_jsonF64,
    newline_not_mem_bitsText, not_false_eq_true, true_and]
  -- what is left are the fixed parts of the row
  repeat' apply And.intro
  all_goals decide

end LineBreaks

end FrankenSim.Recompute
