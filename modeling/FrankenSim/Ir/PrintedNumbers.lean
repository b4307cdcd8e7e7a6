import FrankenSim.Ir.Printer

/-!
# Printed numbers are read back

Every number that is printed starts with a sign that may be missing and with a decimal
number. What follows decides between the integers, the floating-point numbers, the counts
and the quantities, which are tried in this order.
-/
namespace FrankenSim.Ir

open Library

variable {F D : Type}

/-- A minus sign that may be missing. -/
def signText (negative : Bool) : Text := if negative then ['-'] else []

/-- The text of a finite number: digits, and a fraction or an exponent or both. -/
structure FloatText where
  negative : Bool
  whole : ℕ
  fraction : Text
  exponent : Option ℤ
  digits : ∀ c ∈ fraction, c.isDigit = true
  marked : fraction ≠ [] ∨ exponent ≠ none

namespace FloatText

def tail (t : FloatText) : Text :=
  (if t.fraction = [] then [] else '.' :: t.fraction) ++
    t.exponent.elim [] fun e => 'e' :: integerText e

def text (t : FloatText) : Text := signText t.negative ++ (decimalText t.whole ++ t.tail)

end FloatText

/-- What the source relies on: a finite number is written in this form and read back, the
reader of numbers takes nothing else that has a digit, and different numbers have different
bits. The unit of a quantity is the one of its dimensions. -/
structure Documented (K : Codec F Dims) : Prop where
  bits : Function.Injective K.toBits
  unit : ∀ dims, K.unitText dims = dims.canonicalUnit
  debug : ∀ f, K.isFinite f = true → ∃ t : FloatText, K.debugF64 f = t.text
  parse_debug : ∀ f, K.isFinite f = true → K.parseF64 (K.debugF64 f) = some f
  accepts : ∀ text f, K.parseF64 text = some f →
    (∀ c ∈ text, Json.isNumberScalar c = true) ∨ ∀ c ∈ text, c.isDigit = false

section Leads

theorem integerText_eq (z : ℤ) :
    integerText z = signText (decide (z < 0)) ++ decimalText z.natAbs := by
  by_cases hz : z < 0 <;> simp [integerText, signText, hz]

theorem digit_ne {c : Char} (h : c.isDigit = true) {x : Char} (hx : x.isDigit = false) : c ≠ x := by
  rintro rfl
  rw [h] at hx
  cases hx

theorem number_head (n : ℕ) : ∃ c ds, decimalText n = c :: ds ∧ c.isDigit = true ∧
    (c = '0' → ds = []) := by
  obtain ⟨c, ds, heq, hzero⟩ := decimalText_head n
  exact ⟨c, ds, heq, isDigit_decimalText (heq ▸ List.mem_cons_self), fun hc => (hzero hc).2⟩

theorem splitSign_number (negative : Bool) (n : ℕ) (rest : Text) :
    splitSign (signText negative ++ (decimalText n ++ rest)) = (negative, decimalText n ++ rest) := by
  cases negative with
  | true => rfl
  | false =>
    obtain ⟨c, ds, heq, hc, -⟩ := number_head n
    rw [signText, if_neg (by simp), List.nil_append, heq, List.cons_append]
    unfold splitSign
    split
    · exact absurd hc (by simp_all)
    · exact absurd hc (by simp_all)
    · rfl

/-- A digit of the number leads the token. -/
theorem numericLead_number (negative : Bool) (n : ℕ) (rest : Text) :
    numericLead (signText negative ++ (decimalText n ++ rest)) = true := by
  obtain ⟨c, ds, heq, hc, -⟩ := number_head n
  cases negative <;> simp [signText, heq, numericLead, digitAt, hc]

/-- No seed: the second character is a digit, or follows a single zero. -/
theorem stripSeedMark_number (negative : Bool) (n : ℕ) {rest : Text}
    (hrest : ∀ c ∈ rest.head?, c ≠ 'x' ∧ c ≠ 'X') :
    stripSeedMark (signText negative ++ (decimalText n ++ rest)) = none := by
  cases negative with
  | true => rfl
  | false =>
    obtain ⟨c, ds, heq, hc, hzero⟩ := number_head n
    rw [signText, if_neg (by simp), List.nil_append, heq, List.cons_append]
    unfold stripSeedMark
    split
    · rename_i hex hcons
      injection hcons with hhead htail
      rw [hzero hhead, List.nil_append] at htail
      exact absurd rfl (hrest 'x' (by rw [htail]; rfl)).1
    · rename_i hex hcons
      injection hcons with hhead htail
      rw [hzero hhead, List.nil_append] at htail
      exact absurd rfl (hrest 'X' (by rw [htail]; rfl)).2
    · rfl

theorem classifyAtom_number (R : Readers F D) (negative : Bool) (n : ℕ) {rest : Text}
    (hrest : ∀ c ∈ rest.head?, c ≠ 'x' ∧ c ≠ 'X') (span : Span) :
    classifyAtom R (signText negative ++ (decimalText n ++ rest)) span =
      classifyNumeric R (signText negative ++ (decimalText n ++ rest)) span := by
  have hseed := stripSeedMark_number negative n hrest
  have hlead := numericLead_number negative n rest
  unfold classifyAtom
  split
  · rename_i hnil
    rw [hnil] at hlead
    cases hlead
  · rename_i name hcons
    rw [hcons] at hlead
    simp [numericLead, digitAt] at hlead
  · rw [hseed]
    simp only [hlead, if_true]

/-- Something behind the digits: no integer. -/
theorem parseI64_number (negative : Bool) (n : ℕ) {rest : Text}
    (hrest : ∃ c ∈ rest, c.isDigit = false) :
    parseI64 (signText negative ++ (decimalText n ++ rest)) = none := by
  obtain ⟨c, hmem, hc⟩ := hrest
  have hall : ¬ ((decimalText n ++ rest) ≠ [] ∧ (decimalText n ++ rest).all Char.isDigit = true) := by
    rintro ⟨-, hall⟩
    have := List.all_eq_true.mp hall c (List.mem_append_right _ hmem)
    rw [hc] at this
    cases this
  have hnone : signedValue (signText negative ++ (decimalText n ++ rest)) = none := by
    rw [signedValue, splitSign_number]
    exact if_neg hall
  rw [parseI64, hnone]
  rfl

/-- Something behind the digits that no number contains: no floating-point number. -/
theorem Documented.parseF64_number {K : Codec F Dims} (hK : Documented K) (negative : Bool) (n : ℕ)
    {rest : Text} (hrest : ∃ c ∈ rest, Json.isNumberScalar c = false) :
    K.parseF64 (signText negative ++ (decimalText n ++ rest)) = none := by
  obtain ⟨c, hmem, hc⟩ := hrest
  obtain ⟨d, ds, heq, hd, -⟩ := number_head n
  cases hparse : K.parseF64 (signText negative ++ (decimalText n ++ rest)) with
  | none => rfl
  | some f =>
    obtain hscalars | hdigits := hK.accepts _ f hparse
    · have := hscalars c (by simp [hmem])
      rw [hc] at this
      cases this
    · have := hdigits d (by simp [heq])
      rw [hd] at this
      cases this

end Leads

section Integers

theorem parseI64_integerText {z : ℤ} (hz : -2 ^ 63 ≤ z ∧ z < 2 ^ 63) :
    parseI64 (integerText z) = some z := by
  rw [parseI64, signedValue_integerText]
  exact if_pos hz

theorem classifyAtom_integerText (R : Readers F D) {z : ℤ} (hz : -2 ^ 63 ≤ z ∧ z < 2 ^ 63)
    (span : Span) : classifyAtom R (integerText z) span = .ok (.atom (.int z) span) := by
  have hclass := @classifyAtom_number F D R (decide (z < 0)) z.natAbs [] (by simp) span
  rw [List.append_nil, ← integerText_eq] at hclass
  rw [hclass, classifyNumeric, parseI64_integerText hz]

end Integers

section Floats

namespace FloatText

variable (t : FloatText)

/-- The point or the mark of the exponent stands behind the digits. -/
theorem tail_eq : ∃ c rest, t.tail = c :: rest ∧ (c = '.' ∨ c = 'e') := by
  obtain hfraction | hexponent := t.marked
  · exact ⟨'.', _, by rw [tail, if_neg hfraction, List.cons_append], Or.inl rfl⟩
  · obtain ⟨e, he⟩ := Option.ne_none_iff_exists'.mp hexponent
    by_cases hfraction : t.fraction = []
    · exact ⟨'e', _, by rw [tail, if_pos hfraction, he]; rfl, Or.inr rfl⟩
    · exact ⟨'.', _, by rw [tail, if_neg hfraction, List.cons_append], Or.inl rfl⟩

theorem tail_no_seed (unit : Text) : ∀ c ∈ (t.tail ++ unit).head?, c ≠ 'x' ∧ c ≠ 'X' := by
  obtain ⟨mark, rest, heq, hmark⟩ := t.tail_eq
  intro c hc
  rw [heq] at hc
  cases hc
  obtain rfl | rfl := hmark <;> decide

theorem tail_not_integer (unit : Text) : ∃ c ∈ t.tail ++ unit, c.isDigit = false := by
  obtain ⟨mark, rest, heq, hmark⟩ := t.tail_eq
  refine ⟨mark, by simp [heq], ?_⟩
  obtain rfl | rfl := hmark <;> rfl

end FloatText

theorem isNumberScalar_digit {c : Char} (h : c.isDigit = true) : Json.isNumberScalar c = true := by
  simp [Json.isNumberScalar, h]

theorem isNumberScalar_decimalText {n : ℕ} {c : Char} (h : c ∈ decimalText n) :
    Json.isNumberScalar c = true :=
  isNumberScalar_digit (isDigit_decimalText h)

theorem isNumberScalar_signText {negative : Bool} {c : Char} (h : c ∈ signText negative) :
    Json.isNumberScalar c = true := by
  cases negative with
  | true =>
    rw [List.mem_singleton.mp h]
    rfl
  | false => cases h

theorem isNumberScalar_integerText {z : ℤ} {c : Char} (h : c ∈ integerText z) :
    Json.isNumberScalar c = true := by
  rw [integerText_eq] at h
  obtain h | h := List.mem_append.mp h
  · exact isNumberScalar_signText h
  · exact isNumberScalar_decimalText h

theorem FloatText.isNumberScalar (t : FloatText) {c : Char} (h : c ∈ t.text) :
    Json.isNumberScalar c = true := by
  obtain h | h := List.mem_append.mp h
  · exact isNumberScalar_signText h
  obtain h | h := List.mem_append.mp h
  · exact isNumberScalar_decimalText h
  obtain h | h := List.mem_append.mp h
  · split at h
    · cases h
    · obtain rfl | h := List.mem_cons.mp h
      · rfl
      · exact isNumberScalar_digit (t.digits c h)
  · cases he : t.exponent with
    | none =>
      rw [he] at h
      cases h
    | some e =>
      rw [he] at h
      obtain rfl | h := List.mem_cons.mp h
      · rfl
      · exact isNumberScalar_integerText h

/-- A floating-point number is none of the numbers that are tried before. -/
theorem classifyAtom_debug {K : Codec F Dims} (hK : Documented K) {f : F}
    (hf : K.isFinite f = true) (span : Span) :
    classifyAtom K.toReaders (K.debugF64 f) span = .ok (.atom (.float f) span) := by
  have hparse := hK.parse_debug f hf
  obtain ⟨t, ht⟩ := hK.debug f hf
  have hseed := t.tail_no_seed []
  have hinteger := t.tail_not_integer []
  rw [List.append_nil] at hseed hinteger
  rw [ht, FloatText.text] at hparse ⊢
  rw [classifyAtom_number _ _ _ hseed, classifyNumeric, parseI64_number _ _ hinteger, hparse]
  exact if_pos hf

end Floats

section JsonNumbers

theorem skipDigits_append {digits rest : Text} (hne : digits ≠ [])
    (hdigits : ∀ c ∈ digits, c.isDigit = true) (hrest : ∀ c ∈ rest.head?, c.isDigit = false) :
    Json.skipDigits (digits ++ rest) = some rest := by
  obtain ⟨c, ds, rfl⟩ := List.exists_cons_of_ne_nil hne
  have hhead : (((c :: ds) ++ rest).head?).any Char.isDigit = true := hdigits c List.mem_cons_self
  rw [Json.skipDigits, if_pos hhead, (takeWhile_ended hdigits hrest).2]

theorem skipMinus_number (negative : Bool) (n : ℕ) (rest : Text) :
    Json.skipMinus (signText negative ++ (decimalText n ++ rest)) = decimalText n ++ rest := by
  cases negative with
  | true => rfl
  | false =>
    obtain ⟨c, ds, heq, hc, -⟩ := number_head n
    rw [signText, if_neg (by simp), List.nil_append, heq, Json.skipMinus, if_neg]
    rintro ⟨rfl⟩
    cases hc

/-- The integer part has no leading zero. -/
theorem skipInteger_number (n : ℕ) {rest : Text} (hrest : ∀ c ∈ rest.head?, c.isDigit = false) :
    Json.skipInteger (decimalText n ++ rest) = some rest := by
  obtain ⟨c, ds, heq, hc, hzero⟩ := number_head n
  rw [Json.skipInteger]
  split
  case isTrue hhead =>
    rw [heq] at hhead ⊢
    rw [hzero (Option.some.inj hhead)]
    rfl
  case isFalse hhead =>
    exact skipDigits_append (decimalText_ne_nil n) (fun c hc => isDigit_decimalText hc) hrest

theorem isRfc8259Number_integerText (z : ℤ) : Json.isRfc8259Number (integerText z) = true := by
  have hminus := skipMinus_number (decide (z < 0)) z.natAbs []
  have hinteger := @skipInteger_number z.natAbs [] (by simp)
  rw [List.append_nil] at hminus hinteger
  rw [integerText_eq, Json.isRfc8259Number, hminus, hinteger]
  rfl

theorem skipExponent_integerText (e : ℤ) :
    Json.skipExponent ('e' :: integerText e) = some [] := by
  have hskip : ∀ n, Json.skipDigits (decimalText n) = some [] := by
    intro n
    have := @skipDigits_append _ [] (decimalText_ne_nil n) (fun c hc => isDigit_decimalText hc)
      (by simp)
    rwa [List.append_nil] at this
  have hmark : ('e' :: integerText e).head? = some 'e' ∨ ('e' :: integerText e).head? = some 'E' :=
    Or.inl rfl
  rw [Json.skipExponent, if_pos hmark, List.tail_cons]
  by_cases he : e < 0
  · have hsign : ('-' :: decimalText e.natAbs).head? = some '+' ∨
        ('-' :: decimalText e.natAbs).head? = some '-' := Or.inr rfl
    rw [integerText, if_pos he, if_pos hsign, List.tail_cons]
    exact hskip _
  · obtain ⟨c, ds, heq, hc, -⟩ := number_head e.natAbs
    rw [integerText, if_neg he, if_neg]
    · exact hskip _
    · rw [heq]
      rintro (⟨⟨⟩⟩ | ⟨⟨⟩⟩) <;> cases hc

theorem FloatText.isRfc8259Number (t : FloatText) : Json.isRfc8259Number t.text = true := by
  have hmark : ∀ c ∈ t.tail.head?, c.isDigit = false := by
    obtain ⟨mark, rest, heq, hmark⟩ := t.tail_eq
    rw [heq]
    rintro c ⟨⟩
    obtain rfl | rfl := hmark <;> rfl
  have hpower : Json.skipExponent (t.exponent.elim [] fun e => 'e' :: integerText e) = some [] := by
    cases t.exponent with
    | none => rfl
    | some e => exact skipExponent_integerText e
  have hends : ∀ c ∈ (t.exponent.elim [] fun e => 'e' :: integerText e).head?,
      c.isDigit = false := by
    cases t.exponent with
    | none => simp
    | some e =>
      rintro c ⟨⟩
      rfl
  have hfraction : Json.skipFraction t.tail =
      some (t.exponent.elim [] fun e => 'e' :: integerText e) := by
    by_cases hnil : t.fraction = []
    · obtain ⟨e, he⟩ := Option.ne_none_iff_exists'.mp (t.marked.resolve_left (not_not.mpr hnil))
      rw [FloatText.tail, if_pos hnil, he]
      rfl
    · rw [FloatText.tail, if_neg hnil, List.cons_append, Json.skipFraction, if_pos (by rfl)]
      exact skipDigits_append hnil t.digits hends
  rw [Json.isRfc8259Number, FloatText.text, skipMinus_number, skipInteger_number _ hmark,
    Option.bind_some, hfraction, Option.bind_some, hpower]
  rfl

end JsonNumbers

section Suffixes

theorem stripSuffix_append (front suffix : Text) :
    stripSuffix suffix (front ++ suffix) = some front := by
  rw [stripSuffix, if_pos]
  · simp
  · exact List.isSuffixOf_iff_suffix.mpr (List.suffix_append front suffix)

/-- No suffix of a count is behind a text without their first letters. -/
theorem countSuffixes_none {text : Text} (hb : 'B' ∉ text) (hc : 'c' ∉ text) :
    (countSuffixes.findSome? fun s => (stripSuffix s.1 text).map fun digits => (digits, s.2)) =
      none := by
  have hnone : ∀ s ∈ countSuffixes, 'B' ∈ s.1 ∨ 'c' ∈ s.1 := by decide
  rw [List.findSome?_eq_none_iff]
  intro s hs
  rw [stripSuffix, if_neg, Option.map_none]
  intro hsuffix
  have hsubset := (List.isSuffixOf_iff_suffix.mp hsuffix).subset
  obtain h | h := hnone s hs
  · exact hb (hsubset h)
  · exact hc (hsubset h)

/-- The suffix of a count is found, and no other one, when a digit stands in front of it. -/
theorem countSuffixes_suffix {front : Text} {d : Char} (hd : d.isDigit = true) (unit : CountUnit) :
    (countSuffixes.findSome? fun s =>
      (stripSuffix s.1 (front ++ [d] ++ unit.suffix)).map fun digits => (digits, s.2)) =
      some (front ++ [d], unit) := by
  have hnone : ∀ suffix : Text,
      List.isPrefixOf suffix.reverse (unit.suffix.reverse ++ d :: front.reverse) = false →
        stripSuffix suffix (front ++ [d] ++ unit.suffix) = none := by
    intro suffix hsuffix
    rw [stripSuffix, if_neg]
    rw [List.isSuffixOf]
    simp [hsuffix]
  have hbyte : ∀ x, List.isPrefixOf ['B', 'i', x] ('B' :: d :: front.reverse) = false := by
    intro x
    have hi : ('i' == d) = false := beq_eq_false_iff_ne.mpr (digit_ne hd (by decide)).symm
    simp [List.isPrefixOf, hi]
  have hown := stripSuffix_append (front ++ [d]) unit.suffix
  rw [countSuffixes]
  cases unit with
  | cores =>
    rw [List.findSome?_cons, show "cores".toList = CountUnit.cores.suffix from rfl, hown]
    rfl
  | kib =>
    simp only [List.findSome?_cons, hnone "cores".toList rfl, Option.map_none]
    rw [show "KiB".toList = CountUnit.kib.suffix from rfl, hown]
    rfl
  | mib =>
    simp only [List.findSome?_cons, hnone "cores".toList rfl, hnone "KiB".toList rfl,
      Option.map_none]
    rw [show "MiB".toList = CountUnit.mib.suffix from rfl, hown]
    rfl
  | gib =>
    simp only [List.findSome?_cons, hnone "cores".toList rfl, hnone "KiB".toList rfl,
      hnone "MiB".toList rfl, Option.map_none]
    rw [show "GiB".toList = CountUnit.gib.suffix from rfl, hown]
    rfl
  | b =>
    simp only [List.findSome?_cons, hnone "cores".toList rfl, hnone "KiB".toList (hbyte 'K'),
      hnone "MiB".toList (hbyte 'M'), hnone "GiB".toList (hbyte 'G'), Option.map_none]
    rw [show "B".toList = CountUnit.b.suffix from rfl, hown]
    rfl

end Suffixes

section Counts

theorem le_foldl_digits (ds : Text) (v : ℕ) :
    v ≤ ds.foldl (fun n c => n * 10 + (c.toNat - '0'.toNat)) v := by
  induction ds generalizing v with
  | nil => exact le_rfl
  | cons c ds ih =>
    have := ih (v * 10 + (c.toNat - '0'.toNat))
    rw [List.foldl_cons]
    omega

theorem scanDigits_append {ds rest : Text} (hds : ∀ c ∈ ds, c.isDigit = true)
    (hrest : ∀ c ∈ rest.head?, c.isDigit = false ∧ c ≠ '.') (s : DecimalScan)
    (hpoint : s.sawDecimal = false)
    (hfits : ds.foldl (fun n c => n * 10 + (c.toNat - '0'.toNat)) s.significand < 2 ^ 128) :
    scanDigits s (ds ++ rest) = some (⟨ds.foldl (fun n c => n * 10 + (c.toNat - '0'.toNat))
      s.significand, s.fractionalDigits, s.sawDigit || !ds.isEmpty, false⟩, rest) := by
  induction ds generalizing s with
  | nil =>
    obtain ⟨significand, fractionalDigits, sawDigit, sawDecimal⟩ := s
    subst hpoint
    cases rest with
    | nil => simp [scanDigits]
    | cons c rest =>
      obtain ⟨hdigit, hdot⟩ := hrest c rfl
      simp [scanDigits, hdigit, hdot]
  | cons c ds ih =>
    have hgrows := le_foldl_digits ds (s.significand * 10 + (c.toNat - '0'.toNat))
    rw [List.foldl_cons] at hfits
    have hscaled : checkedU128 (s.significand * 10) = some (s.significand * 10) :=
      checked_eq_some.mpr ⟨rfl, by omega⟩
    have hadded : checkedU128 (s.significand * 10 + (c.toNat - '0'.toNat)) =
        some (s.significand * 10 + (c.toNat - '0'.toNat)) := checked_eq_some.mpr ⟨rfl, by omega⟩
    rw [List.cons_append, scanDigits, if_pos (hds c List.mem_cons_self)]
    simp only [hscaled, hadded, hpoint, Option.bind_eq_bind, Option.bind_some, Bool.false_eq_true,
      if_false]
    rw [ih (fun x hx => hds x (List.mem_cons_of_mem c hx)) _ rfl hfits]
    simp

/-- An exponent that is written as an integer. -/
theorem scanExponent_integerText {e : ℤ} (he : -2 ^ 31 ≤ e ∧ e < 2 ^ 31) :
    scanExponent ('e' :: integerText e) = some (e, true, []) := by
  have hparts : ∃ sign digits, takeSign (integerText e) = (sign, digits) ∧
      sign ++ digits = integerText e ∧ digits ≠ [] ∧ ∀ c ∈ digits, c.isDigit = true := by
    by_cases hneg : e < 0
    · exact ⟨['-'], decimalText e.natAbs, by simp [integerText, hneg, takeSign],
        by simp [integerText, hneg], decimalText_ne_nil _, fun c hc => isDigit_decimalText hc⟩
    · obtain ⟨c, ds, heq, hc, -⟩ := number_head e.natAbs
      refine ⟨[], decimalText e.natAbs, ?_, by simp [integerText, hneg], decimalText_ne_nil _,
        fun c hc => isDigit_decimalText hc⟩
      have hplus := digit_ne hc (show '+'.isDigit = false by decide)
      have hminus := digit_ne hc (show '-'.isDigit = false by decide)
      simp [integerText, hneg, heq, takeSign, hplus, hminus]
  obtain ⟨sign, digits, htake, happend, hne, hdigits⟩ := hparts
  obtain ⟨htaken, hdropped⟩ := @takeWhile_ended Char.isDigit digits [] hdigits (by simp)
  rw [List.append_nil] at htaken hdropped
  have hchecked : checkedI32 e = some e := checked_eq_some.mpr ⟨rfl, he⟩
  rw [scanExponent, if_pos (Or.inl rfl), htake]
  simp only [htaken, hdropped, happend, hne, signedValue_integerText, hchecked, ne_eq,
    not_false_eq_true, guard_true, Option.bind_eq_bind, Option.bind_some, Option.pure_def]

theorem stripZeros_reduced {s : ℕ} {e : ℤ} (hs : ¬ 10 ∣ s) : stripZeros s e = some (s, e) := by
  rw [stripZeros, if_neg]
  rintro ⟨-, hmod⟩
  exact hs (Nat.dvd_of_mod_eq_zero hmod)

/-- The range of the exponent in the source. -/
structure DecimalCount.InRange (d : DecimalCount) : Prop extends d.Normal where
  exponent : -2 ^ 31 ≤ d.exponent10 ∧ d.exponent10 < 2 ^ 31

theorem canonical_eq (d : DecimalCount) : d.canonical =
    signText d.negative ++ (decimalText d.significand ++ 'e' :: integerText d.exponent10) := rfl

theorem parse_canonical {d : DecimalCount} (hd : d.InRange) :
    DecimalCount.parse d.canonical = some d := by
  have hvalue : (decimalText d.significand).foldl (fun n c => n * 10 + (c.toNat - '0'.toNat)) 0 =
      d.significand := digitsValue_decimalText d.significand
  have hscan := @scanDigits_append _ ('e' :: integerText d.exponent10)
    (fun c hc => @isDigit_decimalText d.significand c hc) (by rintro c ⟨⟩; decide)
    ⟨0, 0, false, false⟩ rfl (by rw [hvalue]; exact hd.bounded)
  have hsome : (decimalText d.significand).isEmpty = false := by
    simp [decimalText_ne_nil]
  have hchecked : checkedI32 (d.exponent10 - 0) = some d.exponent10 :=
    checked_eq_some.mpr ⟨sub_zero _, hd.exponent⟩
  rw [canonical_eq, DecimalCount.parse, splitSign_number]
  simp only [hscan, hvalue, hsome, scanExponent_integerText hd.exponent, hchecked, guard_true,
    Option.bind_eq_bind, Option.bind_some, Bool.not_false, Bool.or_true, true_or, or_true,
    and_self, Option.pure_def]
  split
  case isTrue hzero =>
    obtain ⟨hnegative, hexponent⟩ := hd.normal.zero hzero
    cases d
    simp_all
  case isFalse hzero =>
    rw [stripZeros_reduced (hd.normal.reduced hzero)]
    rfl

end Counts

end FrankenSim.Ir
