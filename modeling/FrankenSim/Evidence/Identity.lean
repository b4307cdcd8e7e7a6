import FrankenSim.Recompute.Record
import Mathlib.Data.List.DropRight

/-!
# Provenance identities of colours

A colour names its dataset or estimator by a bounded machine-readable identity. The
identities that composition derives are readable as long as they stay within the bound,
and a digest beyond it.
-/
namespace FrankenSim.Evidence

open Library Recompute

/-- The hash function over byte strings of a domain. -/
class HashDomain where
  hashDomain : String → List UInt8 → ContentHash

export HashDomain (hashDomain)

def MAX_COLOR_IDENTITY_BYTES : ℕ := 256

def COMPOSED_IDENTITY_DOMAIN : String := "org.frankensim.fs-evidence.composed-identity.v2"

def DERIVED_IDENTITY_PREFIX : String := "derived:v2:"

/-- The code points of the Unicode property White_Space. -/
def isWhitespace (c : Char) : Bool :=
  (9 ≤ c.toNat && c.toNat ≤ 13) || (8192 ≤ c.toNat && c.toNat ≤ 8202) ||
    [32, 133, 160, 5760, 8232, 8233, 8239, 8287, 12288].contains c.toNat

def isControl (c : Char) : Bool := c.toNat < 32 || (127 ≤ c.toNat && c.toNat < 160)

def trim (value : String) : String :=
  String.ofList ((value.toList.dropWhile isWhitespace).rdropWhile isWhitespace)

def eqIgnoreAsciiCase (a b : String) : Bool :=
  a.toList.map Char.toLower == b.toList.map Char.toLower

def placeholders : List String :=
  ["-", "?", "n/a", "na", "none", "not run", "pending", "placeholder", "tbd", "todo", "unknown"]

def isPlaceholderToken (value : String) : Bool :=
  placeholders.any fun placeholder => eqIgnoreAsciiCase value placeholder

/-- An ASCII letter or digit, or one of `- _ . / : @ + =`. -/
def isIdentityCode (n : ℕ) : Bool :=
  (48 ≤ n && n ≤ 57) || (65 ≤ n && n ≤ 90) || (97 ≤ n && n ≤ 122) ||
    [45, 95, 46, 47, 58, 64, 43, 61].contains n

def isIdentityByte (byte : UInt8) : Bool := isIdentityCode byte.toNat

/-- Why an identity is unusable. -/
def colorIdentityReason (value : String) : Option String :=
  if MAX_COLOR_IDENTITY_BYTES < value.utf8ByteSize then some "too-long"
  else if trim value = "" then some "blank"
  else if trim value ≠ value then some "surrounding-whitespace"
  else if value.toList.any isControl then some "control-character"
  else if !(utf8 value).all isIdentityByte then some "invalid-character"
  else if isPlaceholderToken value then some "placeholder"
  else none

section Usable

variable {c : Char} {value : String}

theorem isIdentityCode_bounds {n : ℕ} (h : isIdentityCode n) : 43 ≤ n ∧ n ≤ 122 := by
  simp [isIdentityCode] at h
  omega

theorem isIdentityByte_of_high {n : ℕ} (hlow : 128 ≤ n) (hn : n < 256) :
    isIdentityByte (UInt8.ofNat n) = false := by
  apply Bool.eq_false_iff.2
  intro h
  have hbounds := isIdentityCode_bounds h
  rw [UInt8.toNat_ofNat_of_lt' hn] at hbounds
  omega

/-- Only a character of one byte is encoded in identity bytes. -/
theorem all_utf8EncodeChar (c : Char) :
    (String.utf8EncodeChar c).all isIdentityByte = isIdentityCode c.toNat := by
  have hwide (h : ¬ c.val.toNat ≤ 127) : isIdentityCode c.toNat = false := by
    apply Bool.eq_false_iff.2
    intro hcode
    have hbounds := (isIdentityCode_bounds hcode).2
    exact h (by unfold Char.toNat at hbounds; omega)
  fun_cases String.utf8EncodeChar c with
  | case1 v h =>
    have hv : (UInt8.ofNat v).toNat = v :=
      UInt8.toNat_ofNat_of_lt' (Nat.lt_of_le_of_lt h (by decide))
    rw [List.all_cons, List.all_nil, Bool.and_true, isIdentityByte, hv]
    rfl
  | case2 v h h' =>
    rw [hwide h, List.all_cons, isIdentityByte_of_high (by omega) (by omega), Bool.false_and]
  | case3 v h h' h'' =>
    rw [hwide h, List.all_cons, isIdentityByte_of_high (by omega) (by omega), Bool.false_and]
  | case4 v h h' h'' =>
    rw [hwide h, List.all_cons, isIdentityByte_of_high (by omega) (by omega), Bool.false_and]

theorem all_isIdentityByte (value : String) :
    (utf8 value).all isIdentityByte ↔ ∀ c ∈ value.toList, isIdentityCode c.toNat := by
  rw [utf8_eq_flatMap, List.all_flatMap, List.all_eq_true]
  simp only [all_utf8EncodeChar]

theorem not_isWhitespace (h : isIdentityCode c.toNat) : isWhitespace c = false := by
  have hbounds := isIdentityCode_bounds h
  simp [isWhitespace]
  omega

theorem not_isControl (h : isIdentityCode c.toNat) : isControl c = false := by
  have hbounds := isIdentityCode_bounds h
  simp [isControl]
  omega

theorem trim_eq (h : ∀ c ∈ value.toList, isIdentityCode c.toNat) : trim value = value := by
  have hfront : value.toList.dropWhile isWhitespace = value.toList := by
    cases hl : value.toList with
    | nil => rfl
    | cons c l =>
      have hc := not_isWhitespace (h c (by simp [hl]))
      simp [hc]
  have hback : value.toList.rdropWhile isWhitespace = value.toList := by
    rw [List.rdropWhile_eq_self_iff]
    intro hne
    simpa using not_isWhitespace (h _ (List.getLast_mem hne))
  rw [trim, hfront, hback, String.ofList_toList]

/-- A usable identity is short, not empty and no placeholder, in identity characters. -/
theorem colorIdentityReason_eq_none :
    colorIdentityReason value = none ↔
      value.utf8ByteSize ≤ MAX_COLOR_IDENTITY_BYTES ∧ value ≠ "" ∧
        (∀ c ∈ value.toList, isIdentityCode c.toNat) ∧ isPlaceholderToken value = false := by
  rw [← all_isIdentityByte]
  constructor
  · intro h
    unfold colorIdentityReason at h
    split_ifs at h with hlong hblank htrim hcontrol hbyte hplaceholder
    refine ⟨by omega, ?_, by simpa using hbyte, by simpa using hplaceholder⟩
    rintro rfl
    exact hblank (by decide)
  · rintro ⟨hlong, hne, hbyte, hplaceholder⟩
    have hchars := (all_isIdentityByte value).1 hbyte
    have hcontrol : value.toList.any isControl = false := by
      rw [List.any_eq_false]
      intro c hc
      simp [not_isControl (hchars c hc)]
    unfold colorIdentityReason
    rw [if_neg (by omega), trim_eq hchars, if_neg hne, if_neg (by simp), hcontrol, hbyte,
      hplaceholder]
    rfl

end Usable

section Text

/-- Text in identity characters. -/
def IdentityText (value : String) : Prop := ∀ c ∈ value.toList, isIdentityCode c.toNat

instance (value : String) : Decidable (IdentityText value) :=
  decidable_of_iff (value.toList.all fun c => isIdentityCode c.toNat) List.all_eq_true

theorem IdentityText.append {a b : String} (ha : IdentityText a) (hb : IdentityText b) :
    IdentityText (a ++ b) := by
  intro c hc
  rw [String.toList_append, List.mem_append] at hc
  exact hc.elim (ha c) (hb c)

theorem identityText_toString (n : ℕ) : IdentityText (toString n) := by
  intro c hc
  have hdigit : c.isDigit := by
    apply Nat.isDigit_of_mem_toDigits (b := 10) (n := n) (by decide) (by decide)
    simpa [Nat.repr] using hc
  have hbounds : 48 ≤ c.toNat ∧ c.toNat ≤ 57 := Char.isDigit_iff_toNat.1 hdigit
  simp [isIdentityCode]
  omega

theorem identityText_toHex (h : ContentHash) : IdentityText h.toHex := by
  have hdigit : ∀ d < 16, isIdentityCode (hexDigit d).toNat := by decide
  intro c hc
  rw [ContentHash.toHex, String.toList_ofList, List.mem_flatMap] at hc
  obtain ⟨b, -, hb⟩ := hc
  have hlt := b.toNat_lt
  rcases List.mem_pair.1 hb with rfl | rfl
  · exact hdigit _ (by omega)
  · exact hdigit _ (by omega)

theorem length_toHex (h : ContentHash) : h.toHex.toList.length = 64 := by
  have htwo (l : List UInt8) : (l.flatMap fun b =>
      [hexDigit (b.toNat / 16), hexDigit (b.toNat % 16)]).length = 2 * l.length := by
    induction l with
    | nil => rfl
    | cons b l ih =>
      rw [List.flatMap_cons, List.length_append, ih, List.length_cons]
      simp
      omega
  rw [ContentHash.toHex, String.toList_ofList, htwo, h.length_eq]

theorem IdentityText.utf8ByteSize_eq {value : String} (h : IdentityText value) :
    value.utf8ByteSize = value.toList.length := by
  have hone {c : Char} (hc : isIdentityCode c.toNat) : (String.utf8EncodeChar c).length = 1 := by
    have hbounds := (isIdentityCode_bounds hc).2
    rw [String.length_utf8EncodeChar, Char.utf8Size_eq_one_iff, UInt32.le_iff_toNat_le]
    unfold Char.toNat at hbounds
    exact hbounds.trans (by decide)
  have hsum : ∀ l : List Char, (∀ c ∈ l, isIdentityCode c.toNat) →
      (l.flatMap String.utf8EncodeChar).length = l.length := by
    intro l
    induction l with
    | nil => exact fun _ => rfl
    | cons c l ih =>
      intro hl
      rw [List.flatMap_cons, List.length_append, hone (hl c List.mem_cons_self),
        ih fun c hc => hl c (List.mem_cons_of_mem _ hc), List.length_cons, Nat.add_comm]
  rw [← length_utf8, utf8_eq_flatMap, hsum _ h]

theorem not_isPlaceholderToken {value : String} (h : 11 < value.toList.length) :
    isPlaceholderToken value = false := by
  have hshort : ∀ placeholder ∈ placeholders, placeholder.toList.length ≤ 11 := by decide
  unfold isPlaceholderToken
  rw [List.any_eq_false]
  intro placeholder hmem heq
  rw [eqIgnoreAsciiCase, beq_iff_eq] at heq
  have hlength := congrArg List.length heq
  rw [List.length_map, List.length_map] at hlength
  have := hshort placeholder hmem
  omega

/-- A derived identity that fits is usable. -/
theorem colorIdentityReason_derived {label tail : String} (hlabel : IdentityText label)
    (htail : IdentityText tail)
    (hfits : (DERIVED_IDENTITY_PREFIX ++ label ++ ":" ++ tail).utf8ByteSize ≤
      MAX_COLOR_IDENTITY_BYTES) :
    colorIdentityReason (DERIVED_IDENTITY_PREFIX ++ label ++ ":" ++ tail) = none := by
  have hlead : IdentityText DERIVED_IDENTITY_PREFIX := by decide
  have hcolon : IdentityText ":" := by decide
  have htext := ((hlead.append hlabel).append hcolon).append htail
  have hlength : 11 < (DERIVED_IDENTITY_PREFIX ++ label ++ ":" ++ tail).toList.length := by
    have heleven : DERIVED_IDENTITY_PREFIX.toList.length = 11 := by decide
    have hone : ":".toList.length = 1 := by decide
    simp only [String.toList_append, List.length_append]
    omega
  apply colorIdentityReason_eq_none.2
  refine ⟨hfits, ?_, htext, not_isPlaceholderToken hlength⟩
  intro hempty
  rw [hempty] at hlength
  exact absurd hlength (by decide)

theorem colorIdentityReason_digest {label : String} (hlabel : IdentityText label)
    (hshort : label.utf8ByteSize ≤ 128) (h : ContentHash) :
    colorIdentityReason (DERIVED_IDENTITY_PREFIX ++ label ++ ":" ++ h.toHex) = none := by
  apply colorIdentityReason_derived hlabel (identityText_toHex h)
  have hhex := (identityText_toHex h).utf8ByteSize_eq
  rw [length_toHex] at hhex
  have heleven : DERIVED_IDENTITY_PREFIX.utf8ByteSize = 11 := by decide
  have hone : ":".utf8ByteSize = 1 := by decide
  have hmax : MAX_COLOR_IDENTITY_BYTES = 256 := rfl
  simp only [String.utf8ByteSize_append]
  omega

end Text

section Derived

variable [HashDomain]

def pairDigest (hashLabel left right : String) : String :=
  let labelHash := hashDomain COMPOSED_IDENTITY_DOMAIN (utf8 hashLabel)
  let leftHash := hashDomain COMPOSED_IDENTITY_DOMAIN (utf8 left)
  let rightHash := hashDomain COMPOSED_IDENTITY_DOMAIN (utf8 right)
  DERIVED_IDENTITY_PREFIX ++ hashLabel ++ ":" ++
    (hashDomain COMPOSED_IDENTITY_DOMAIN
      (labelHash.bytes ++ leftHash.bytes ++ rightHash.bytes)).toHex

def boundedPairIdentity (hashLabel left separator right : String) : String :=
  let readable := DERIVED_IDENTITY_PREFIX ++ hashLabel ++ ":" ++ toString left.utf8ByteSize ++
    ":" ++ left ++ separator ++ toString right.utf8ByteSize ++ ":" ++ right
  if colorIdentityReason left = none ∧ colorIdentityReason right = none ∧
      readable.utf8ByteSize ≤ MAX_COLOR_IDENTITY_BYTES then
    readable
  else pairDigest hashLabel left right

def composedEstimatorIdentity (left right : String) : String :=
  boundedPairIdentity "composed" left "+" right

def verifiedEstimatorIdentity (estimator : String) : String :=
  boundedPairIdentity "composed-verified" estimator "+" "verified"

def validatedEstimatorIdentity (estimator dataset : String) : String :=
  boundedPairIdentity "composed-validated" estimator "+" dataset

def composedDatasetIdentity (left right : String) : String :=
  boundedPairIdentity "datasets" left "+" right

def verifiedDatasetIdentity (dataset : String) : String :=
  boundedPairIdentity "datasets-verified" dataset "+" "verified"

def disjointRegimeIdentity (left right : String) : String :=
  boundedPairIdentity "disjoint-regimes" left "+" right

def demotionEstimatorIdentity (dataset axis : String) : String :=
  boundedPairIdentity "regime-exit" dataset "@" axis

/-- Composition always derives a usable identity, whatever the identities of its operands. -/
theorem colorIdentityReason_boundedPairIdentity {label separator : String}
    (hlabel : IdentityText label) (hshort : label.utf8ByteSize ≤ 128)
    (hseparator : IdentityText separator) (left right : String) :
    colorIdentityReason (boundedPairIdentity label left separator right) = none := by
  unfold boundedPairIdentity
  dsimp only
  split_ifs with h
  · obtain ⟨hleft, hright, hfits⟩ := h
    have hlefttext := (colorIdentityReason_eq_none.1 hleft).2.2.1
    have hrighttext := (colorIdentityReason_eq_none.1 hright).2.2.1
    have hcolon : IdentityText ":" := by decide
    have htail : IdentityText (toString left.utf8ByteSize ++ (":" ++ (left ++ (separator ++
        (toString right.utf8ByteSize ++ (":" ++ right)))))) :=
      (identityText_toString _).append (hcolon.append (IdentityText.append hlefttext
        (hseparator.append ((identityText_toString _).append (hcolon.append hrighttext)))))
    have hreadable := colorIdentityReason_derived hlabel htail
    simp only [String.append_assoc] at hreadable hfits ⊢
    exact hreadable hfits
  · exact colorIdentityReason_digest hlabel hshort _

theorem composedEstimatorIdentity_usable (left right : String) :
    colorIdentityReason (composedEstimatorIdentity left right) = none :=
  colorIdentityReason_boundedPairIdentity (by decide) (by decide) (by decide) _ _

theorem verifiedEstimatorIdentity_usable (estimator : String) :
    colorIdentityReason (verifiedEstimatorIdentity estimator) = none :=
  colorIdentityReason_boundedPairIdentity (by decide) (by decide) (by decide) _ _

theorem validatedEstimatorIdentity_usable (estimator dataset : String) :
    colorIdentityReason (validatedEstimatorIdentity estimator dataset) = none :=
  colorIdentityReason_boundedPairIdentity (by decide) (by decide) (by decide) _ _

theorem composedDatasetIdentity_usable (left right : String) :
    colorIdentityReason (composedDatasetIdentity left right) = none :=
  colorIdentityReason_boundedPairIdentity (by decide) (by decide) (by decide) _ _

theorem verifiedDatasetIdentity_usable (dataset : String) :
    colorIdentityReason (verifiedDatasetIdentity dataset) = none :=
  colorIdentityReason_boundedPairIdentity (by decide) (by decide) (by decide) _ _

theorem disjointRegimeIdentity_usable (left right : String) :
    colorIdentityReason (disjointRegimeIdentity left right) = none :=
  colorIdentityReason_boundedPairIdentity (by decide) (by decide) (by decide) _ _

end Derived

end FrankenSim.Evidence
