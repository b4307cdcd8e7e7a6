import FrankenSim.Ir.PrintedNumbers

/-!
# Printed atoms are read back as leaves

Both syntaxes hand the text of a number, of a seed and of a quantity to one classifier,
which returns the atom that was printed. Symbols and keywords are tokens of their own, and
strings are read back through the escapes of their syntax. What a printer writes for a
valid atom is then a leaf of the grammar of its syntax, with the meaning of the atom.
-/
namespace FrankenSim.Ir

open Library

variable {F D : Type}

/-- Values of the types of the source. A decimal is built by its parser only. -/
def Atom.InRange : Atom F D → Prop
  | .int value => -2 ^ 63 ≤ value ∧ value < 2 ^ 63
  | .count (.exact value) _ => value < 2 ^ 128
  | .count (.fractional decimal) _ => decimal.InRange
  | .seed value => value < 2 ^ 64
  | _ => True

/-- The atom with a quantity in its base units. -/
def Atom.canonical (K : Codec F D) : Atom F D → Atom F D
  | .qty value dims _ => .qty value dims (K.debugF64 value ++ K.unitText dims)
  | kind => kind

section Tokens

/-- A text that is one token. -/
def IsToken (text : Text) : Prop := text ≠ [] ∧ ∀ c ∈ text, isAtomDelimiter c = false

theorem isAtomDelimiter_number {c : Char} (h : Json.isNumberScalar c = true) :
    isAtomDelimiter c = false := by
  have hne : ∀ x, Json.isNumberScalar x = false → c ≠ x := by
    rintro x hx rfl
    rw [h] at hx
    cases hx
  simp [isAtomDelimiter, isAsciiWhitespace, hne _ (show Json.isNumberScalar ' ' = false by decide),
    hne _ (show Json.isNumberScalar '\t' = false by decide),
    hne _ (show Json.isNumberScalar '\n' = false by decide),
    hne _ (show Json.isNumberScalar '\x0c' = false by decide),
    hne _ (show Json.isNumberScalar '\r' = false by decide),
    hne _ (show Json.isNumberScalar '(' = false by decide),
    hne _ (show Json.isNumberScalar ')' = false by decide),
    hne _ (show Json.isNumberScalar '"' = false by decide),
    hne _ (show Json.isNumberScalar ';' = false by decide)]

theorem isToken_number {text : Text} (hne : text ≠ [])
    (h : ∀ c ∈ text, Json.isNumberScalar c = true) : IsToken text :=
  ⟨hne, fun c hc => isAtomDelimiter_number (h c hc)⟩

theorem IsToken.append {text rest : Text} (h : IsToken text)
    (hrest : ∀ c ∈ rest, isAtomDelimiter c = false) : IsToken (text ++ rest) := by
  refine ⟨by simp [h.1], ?_⟩
  intro c hc
  obtain hc | hc := List.mem_append.mp hc
  · exact h.2 c hc
  · exact hrest c hc

theorem isToken_integerText (z : ℤ) : IsToken (integerText z) := by
  refine isToken_number ?_ fun c hc => isNumberScalar_integerText hc
  rw [integerText_eq]
  simp [decimalText_ne_nil]

theorem FloatText.isToken (t : FloatText) : IsToken t.text := by
  refine isToken_number ?_ fun c hc => t.isNumberScalar hc
  rw [FloatText.text]
  simp [decimalText_ne_nil]

end Tokens

section Counts

theorem suffix_spec (unit : CountUnit) :
    (∀ c ∈ unit.suffix, isAtomDelimiter c = false) ∧
    (∀ c ∈ unit.suffix.head?, c ≠ 'x' ∧ c ≠ 'X') ∧
    (∃ c ∈ unit.suffix, c.isDigit = false ∧ Json.isNumberScalar c = false) := by
  cases unit <;> simp [CountUnit.suffix, isAtomDelimiter, isAsciiWhitespace, Json.isNumberScalar]

theorem integerText_last (z : ℤ) :
    ∃ front c, integerText z = front ++ [c] ∧ c.isDigit = true := by
  obtain ⟨front, c, heq, hc⟩ := decimalText_last z.natAbs
  exact ⟨signText (decide (z < 0)) ++ front, c, by rw [integerText_eq, heq, List.append_assoc], hc⟩

theorem classifyNumeric_exact (R : Readers F D) {front : Text} {d : Char} (hd : d.isDigit = true)
    (unit : CountUnit) (hinteger : parseI64 (front ++ [d] ++ unit.suffix) = none)
    (hfloat : R.parseF64 (front ++ [d] ++ unit.suffix) = none)
    (hall : (front ++ [d]).all Char.isDigit = true) {v : ℕ}
    (hfits : checkedU128 (digitsValue (front ++ [d])) = some v) (span : Span) :
    classifyNumeric R (front ++ [d] ++ unit.suffix) span =
      .ok (.atom (.count (.exact v) unit) span) := by
  have hbare : front ++ [d] ≠ [] ∧ (front ++ [d]).all Char.isDigit = true := ⟨by simp, hall⟩
  rw [classifyNumeric, hinteger, hfloat]
  simp only [countSuffixes_suffix hd unit, if_pos hbare, hfits]

theorem classifyNumeric_fractional (R : Readers F D) {front : Text} {d : Char}
    (hd : d.isDigit = true) (unit : CountUnit)
    (hinteger : parseI64 (front ++ [d] ++ unit.suffix) = none)
    (hfloat : R.parseF64 (front ++ [d] ++ unit.suffix) = none)
    (hall : ¬ (front ++ [d]).all Char.isDigit = true) {decimal : DecimalCount}
    (hparse : DecimalCount.parse (front ++ [d]) = some decimal) (span : Span) :
    classifyNumeric R (front ++ [d] ++ unit.suffix) span =
      .ok (.atom (.count (.fractional decimal) unit) span) := by
  have hbare : ¬ (front ++ [d] ≠ [] ∧ (front ++ [d]).all Char.isDigit = true) :=
    fun h => hall h.2
  rw [classifyNumeric, hinteger, hfloat]
  simp only [countSuffixes_suffix hd unit, if_neg hbare, hparse]

theorem classifyAtom_count {K : Codec F Dims} (hK : Documented K) {value : CountValue}
    {unit : CountUnit} (h : (Atom.count value unit : Atom F Dims).InRange) (span : Span) :
    classifyAtom K.toReaders (value.literal ++ unit.suffix) span =
      .ok (.atom (.count value unit) span) := by
  obtain ⟨-, hseed, x, hx, hdigit, hscalar⟩ := suffix_spec unit
  cases value with
  | exact v =>
    obtain ⟨front, d, heq, hd⟩ := decimalText_last v
    have hfits : checkedU128 (digitsValue (decimalText v)) = some v := by
      rw [digitsValue_decimalText]
      exact checked_eq_some.mpr ⟨rfl, h⟩
    have hall : (decimalText v).all Char.isDigit = true :=
      List.all_eq_true.mpr fun c hc => isDigit_decimalText hc
    have hclass := classifyAtom_number K.toReaders false v hseed span
    have hinteger := parseI64_number false v ⟨x, hx, hdigit⟩
    have hfloat := hK.parseF64_number false v ⟨x, hx, hscalar⟩
    have hsign : signText false = [] := rfl
    rw [hsign, List.nil_append] at hclass hinteger hfloat
    rw [CountValue.literal, hclass]
    rw [heq] at hinteger hfloat hfits hall ⊢
    exact classifyNumeric_exact K.toReaders hd unit hinteger hfloat hall hfits span
  | fractional decimal =>
    obtain ⟨front, d, heq, hd⟩ := integerText_last decimal.exponent10
    have happend : decimal.canonical ++ unit.suffix = signText decimal.negative ++
        (decimalText decimal.significand ++ ('e' :: integerText decimal.exponent10 ++ unit.suffix)) := by
      rw [canonical_eq]
      simp
    have hlast : decimal.canonical = signText decimal.negative ++
        (decimalText decimal.significand ++ 'e' :: front) ++ [d] := by
      rw [canonical_eq, heq]
      simp
    have hclass := @classifyAtom_number F Dims K.toReaders decimal.negative decimal.significand
      ('e' :: integerText decimal.exponent10 ++ unit.suffix) (by rintro c ⟨⟩; decide) span
    have hinteger := @parseI64_number decimal.negative decimal.significand
      ('e' :: integerText decimal.exponent10 ++ unit.suffix) ⟨'e', by simp, by decide⟩
    have hfloat := @Documented.parseF64_number F K hK decimal.negative decimal.significand
      ('e' :: integerText decimal.exponent10 ++ unit.suffix) ⟨x, by simp [hx], hscalar⟩
    have hall : ¬ decimal.canonical.all Char.isDigit = true := by
      intro hall
      have := List.all_eq_true.mp hall 'e' (by simp [canonical_eq])
      cases this
    have hparse := parse_canonical (show decimal.InRange from h)
    rw [← happend] at hclass hinteger hfloat
    rw [CountValue.literal, hclass]
    rw [hlast] at hinteger hfloat hall hparse ⊢
    exact classifyNumeric_fractional K.toReaders hd unit hinteger hfloat hall hparse span

theorem isToken_count (value : CountValue) (unit : CountUnit) :
    IsToken (value.literal ++ unit.suffix) := by
  refine IsToken.append ?_ (suffix_spec unit).1
  cases value with
  | exact v => exact isToken_number (decimalText_ne_nil v) fun c hc => isNumberScalar_decimalText hc
  | fractional decimal =>
    refine isToken_number (by simp [CountValue.literal, canonical_eq]) ?_
    intro c hc
    rw [CountValue.literal, canonical_eq] at hc
    simp only [List.mem_append, List.mem_cons] at hc
    obtain hc | hc | rfl | hc := hc
    · exact isNumberScalar_signText hc
    · exact isNumberScalar_decimalText hc
    · rfl
    · exact isNumberScalar_integerText hc

end Counts

section Seeds

theorem hexDigit_spec : ∀ d < 16, Json.hexValue (hexDigit d) = some d ∧
    isAtomDelimiter (hexDigit d) = false ∧ hexDigit d ≠ '+' := by
  decide

theorem hexNumber_hexText (n : ℕ) : Json.hexNumber (hexText n) = some n := by
  have hfold : ∀ (ds : List ℕ) (v : ℕ), (∀ d ∈ ds, d < 16) →
      (ds.map hexDigit).foldlM (fun n c => (Json.hexValue c).map fun v => n * 16 + v) v =
        some (ds.foldl (fun v d => v * 16 + d) v) := by
    intro ds
    induction ds with
    | nil => exact fun _ _ => rfl
    | cons d ds ih =>
      intro v hds
      rw [List.map_cons, List.foldlM_cons, (hexDigit_spec d (hds d List.mem_cons_self)).1]
      exact ih _ fun c hc => hds c (List.mem_cons_of_mem d hc)
  rw [Json.hexNumber, hexText, hfold _ _ fun d hd => radixDigits_lt (by decide) d hd,
    foldl_radixDigits]

theorem mem_hexText {n : ℕ} {c : Char} (h : c ∈ hexText n) :
    isAtomDelimiter c = false ∧ c ≠ '+' := by
  obtain ⟨d, hd, rfl⟩ := List.mem_map.mp h
  exact (hexDigit_spec d (radixDigits_lt (by decide) d hd)).2

theorem classifyAtom_seed (R : Readers F D) {v : ℕ} (hv : v < 2 ^ 64) (span : Span) :
    classifyAtom R (seedText v) span = .ok (.atom (.seed v) span) := by
  have hne : hexText v ≠ [] := by
    obtain ⟨d, rest, heq, -⟩ := @radixDigits_head 16 v (by decide)
    simp [hexText, heq]
  have hplus : ¬ (hexText v).head? = some '+' :=
    fun h => (mem_hexText (List.mem_of_mem_head? h)).2 rfl
  have hparse : parseSeed (hexText v) = some v := by
    simp only [parseSeed, if_neg hplus, hexNumber_hexText, hne, hv, ne_eq, not_false_eq_true,
      guard_true, Option.pure_def, Option.bind_eq_bind, Option.bind_some]
  have hmark : stripSeedMark (seedText v) = some (hexText v) := rfl
  rw [classifyAtom]
  · rw [hmark]
    simp only [hparse]
  · rintro ⟨⟩
  · rintro name ⟨⟩

theorem isToken_seedText (v : ℕ) : IsToken (seedText v) := by
  refine ⟨by simp [seedText], ?_⟩
  intro c hc
  rw [seedText, List.mem_cons, List.mem_cons] at hc
  obtain rfl | rfl | hc := hc
  · rfl
  · rfl
  · exact (mem_hexText hc).1

end Seeds

section Quantities

theorem mem_parts {dims : Dims} {part : Text} (h : part ∈ dims.parts) :
    ∃ symbol ∈ ["kg".toList, "m".toList, "s".toList, "K".toList, "A".toList, "mol".toList],
      part = symbol ∨ ∃ e, part = symbol ++ '^' :: integerText e := by
  rw [Dims.parts, List.mem_filterMap] at h
  obtain ⟨⟨symbol, e⟩, hmem, hpart⟩ := h
  refine ⟨symbol.toList, ?_, ?_⟩
  · simp only [List.mem_cons, Prod.mk.injEq, List.not_mem_nil, or_false] at hmem
    obtain ⟨rfl, -⟩ | ⟨rfl, -⟩ | ⟨rfl, -⟩ | ⟨rfl, -⟩ | ⟨rfl, -⟩ | ⟨rfl, -⟩ := hmem <;> simp
  · dsimp only at hpart
    split_ifs at hpart
    · exact Or.inl (Option.some.inj hpart).symm
    · exact Or.inr ⟨e, (Option.some.inj hpart).symm⟩

theorem parts_ne_nil {dims : Dims} (h : dims.isNone = false) : dims.parts ≠ [] := by
  intro hnil
  have hzero : ∀ (e : ℤ) (p q : Text),
      (if e = 0 then none else if e = 1 then some p else some q) = none → e = 0 := by
    intro e p q he
    split_ifs at he with he0
    exact he0
  rw [Dims.parts, List.filterMap_eq_nil_iff] at hnil
  obtain ⟨m, kg, s, k, a, mol⟩ := dims
  simp only [List.mem_cons, List.not_mem_nil, or_false, forall_eq_or_imp, forall_eq] at hnil
  obtain ⟨hkg, hm, hs, hk, ha, hmol⟩ := hnil
  rw [hzero _ _ _ hkg, hzero _ _ _ hm, hzero _ _ _ hs, hzero _ _ _ hk, hzero _ _ _ ha,
    hzero _ _ _ hmol] at h
  cases h

theorem mem_intercalate {sep : Char} {parts : List Text} {c : Char}
    (h : c ∈ [sep].intercalate parts) : c = sep ∨ ∃ part ∈ parts, c ∈ part := by
  induction parts with
  | nil => cases h
  | cons part parts ih =>
    by_cases hnil : parts = []
    · subst hnil
      rw [List.intercalate_singleton] at h
      exact Or.inr ⟨part, List.mem_cons_self, h⟩
    · rw [List.intercalate_cons_of_ne_nil hnil, List.mem_append, List.mem_append,
        List.mem_singleton] at h
      obtain (h | h) | h := h
      · exact Or.inr ⟨part, List.mem_cons_self, h⟩
      · exact Or.inl h
      · obtain hsep | ⟨part', hmem, hc⟩ := ih h
        · exact Or.inl hsep
        · exact Or.inr ⟨part', List.mem_cons_of_mem part hmem, hc⟩

/-- Letters, powers and products. -/
theorem canonicalUnit_scalars {dims : Dims} {c : Char} (h : c ∈ dims.canonicalUnit) :
    c ∈ "kgmsKAolrad^·".toList ∨ Json.isNumberScalar c = true := by
  have hsymbols : ∀ symbol ∈ ["kg".toList, "m".toList, "s".toList, "K".toList, "A".toList,
      "mol".toList], ∀ c ∈ symbol, c ∈ "kgmsKAolrad^·".toList := by simp
  rw [Dims.canonicalUnit] at h
  split_ifs at h with hnone
  · have hrad : ∀ c ∈ "rad".toList, c ∈ "kgmsKAolrad^·".toList ∨ Json.isNumberScalar c = true := by
      simp
    exact hrad c h
  rw [Dims.unitString, if_neg (parts_ne_nil (by simpa using hnone))] at h
  obtain rfl | ⟨part, hpart, hc⟩ := mem_intercalate h
  · exact Or.inl (by simp)
  obtain ⟨symbol, hsymbol, rfl | ⟨e, rfl⟩⟩ := mem_parts hpart
  · exact Or.inl (hsymbols _ hsymbol c hc)
  · obtain hc | hc := List.mem_append.mp hc
    · exact Or.inl (hsymbols symbol hsymbol c hc)
    · obtain rfl | hc := List.mem_cons.mp hc
      · exact Or.inl (by simp)
      · exact Or.inr (isNumberScalar_integerText hc)

theorem canonicalUnit_letter (dims : Dims) :
    ∃ c ∈ dims.canonicalUnit, Json.isNumberScalar c = false := by
  have hsymbols : ∀ symbol ∈ ["kg".toList, "m".toList, "s".toList, "K".toList, "A".toList,
      "mol".toList], ∃ c ∈ symbol, Json.isNumberScalar c = false := by simp [Json.isNumberScalar]
  rw [Dims.canonicalUnit]
  split_ifs with hnone
  · simp [Json.isNumberScalar]
  have hne := parts_ne_nil (by simpa using hnone)
  rw [Dims.unitString, if_neg hne]
  obtain ⟨part, parts, hparts⟩ := List.exists_cons_of_ne_nil hne
  have hletter : ∃ c ∈ part, Json.isNumberScalar c = false := by
    obtain ⟨symbol, hsymbol, hpart⟩ := mem_parts (hparts ▸ List.mem_cons_self : part ∈ dims.parts)
    obtain ⟨c, hc, hscalar⟩ := hsymbols symbol hsymbol
    obtain rfl | ⟨e, rfl⟩ := hpart
    · exact ⟨c, hc, hscalar⟩
    · exact ⟨c, List.mem_append_left _ hc, hscalar⟩
  obtain ⟨c, hc, hscalar⟩ := hletter
  refine ⟨c, ?_, hscalar⟩
  rw [hparts]
  by_cases hnil : parts = []
  · rwa [hnil, List.intercalate_singleton]
  · rw [List.intercalate_cons_of_ne_nil hnil]
    exact List.mem_append_left _ (List.mem_append_left _ hc)

variable {K : Codec F Dims}

/-- The canonical text of a quantity is read as the quantity. -/
theorem canonicalQuantityText_eq_ok (hK : Documented K) {value : F} {dims : Dims} {span : Span}
    {text : Text} (h : canonicalQuantityText K value dims span = .ok text) :
    K.isFinite value = true ∧ text = K.debugF64 value ++ dims.canonicalUnit ∧
      K.parseQty text = .ok (value, dims) := by
  rw [canonicalQuantityText, hK.unit] at h
  split at h
  · cases h
  rename_i hfinite
  dsimp only at h
  split at h
  · cases h
  rename_i value' dims' hparse
  split_ifs at h with hsame
  rw [not_or, not_not, not_not] at hsame
  injection h with htext
  rw [← htext]
  refine ⟨by simpa using hfinite, rfl, ?_⟩
  rw [hparse, hK.bits hsame.1, hsame.2]

theorem isToken_quantity (hK : Documented K) {value : F} (hfinite : K.isFinite value = true)
    (dims : Dims) : IsToken (K.debugF64 value ++ dims.canonicalUnit) := by
  obtain ⟨t, ht⟩ := hK.debug value hfinite
  rw [ht]
  apply t.isToken.append
  intro c hc
  obtain hletter | hnumber := canonicalUnit_scalars hc
  · have hletters : ∀ c ∈ "kgmsKAolrad^·".toList, isAtomDelimiter c = false := by
      simp [isAtomDelimiter, isAsciiWhitespace]
    exact hletters c hletter
  · exact isAtomDelimiter_number hnumber

theorem classifyAtom_quantity (hK : Documented K) {value : F} {dims : Dims} {span : Span}
    {text : Text} (h : canonicalQuantityText K value dims span = .ok text) (span' : Span) :
    classifyAtom K.toReaders text span' = .ok (.atom (.qty value dims text) span') := by
  obtain ⟨hfinite, htext, hparse⟩ := canonicalQuantityText_eq_ok hK h
  obtain ⟨t, ht⟩ := hK.debug value hfinite
  have hletters : ∀ c, c ∈ "kgmsKAolrad^·".toList ∨ Json.isNumberScalar c = true →
      c ≠ 'B' ∧ c ≠ 'c' := by
    rintro c (hc | hc)
    · have hletters : ∀ c ∈ "kgmsKAolrad^·".toList, c ≠ 'B' ∧ c ≠ 'c' := by simp
      exact hletters c hc
    · constructor <;> rintro rfl <;> cases hc
  have hscalars : ∀ c ∈ text, c ≠ 'B' ∧ c ≠ 'c' := by
    intro c hc
    rw [htext, ht] at hc
    obtain hc | hc := List.mem_append.mp hc
    · exact hletters c (Or.inr (t.isNumberScalar hc))
    · exact hletters c (canonicalUnit_scalars hc)
  obtain ⟨x, hx, hscalar⟩ := canonicalUnit_letter dims
  have happend : text = signText t.negative ++ (decimalText t.whole ++
      (t.tail ++ dims.canonicalUnit)) := by
    rw [htext, ht, FloatText.text]
    simp
  have hclass := classifyAtom_number K.toReaders t.negative t.whole
    (t.tail_no_seed dims.canonicalUnit) span'
  have hinteger := parseI64_number t.negative t.whole (t.tail_not_integer dims.canonicalUnit)
  have hfloat := hK.parseF64_number t.negative t.whole
    ⟨x, List.mem_append_right t.tail hx, hscalar⟩
  rw [← happend] at hclass hinteger hfloat
  rw [hclass, classifyNumeric, hinteger, hfloat]
  simp only [countSuffixes_none (fun hb => (hscalars 'B' hb).1 rfl)
    (fun hc => (hscalars 'c' hc).2 rfl), classifyQuantity, hparse]

end Quantities

section Validation

variable {K : Codec F Dims}

theorem validateAtom_qty {path : String} {span : Span} {value : F} {dims : Dims} {text : Text}
    (h : validateAtom K path span (.qty value dims text) = .ok ()) :
    ∃ canonical, canonicalQuantityText K value dims span = .ok canonical := by
  rw [validateAtom] at h
  split_ifs at h
  split at h
  · cases h
  · split_ifs at h
    cases hcanonical : canonicalQuantityText K value dims span with
    | error e =>
      rw [hcanonical] at h
      cases h
    | ok canonical => exact ⟨canonical, rfl⟩

/-- The canonical form of a valid atom is valid wherever it stands. -/
theorem validateAtom_canonical (hK : Documented K) {path : String} {span : Span}
    {kind : Atom F Dims} (h : validateAtom K path span kind = .ok ()) (path' : String)
    (span' : Span) : validateAtom K path' span' (kind.canonical K) = .ok () := by
  cases kind with
  | qty value dims text =>
    obtain ⟨canonical, hcanonical⟩ := validateAtom_qty h
    obtain ⟨hfinite, htext, hparse⟩ := canonicalQuantityText_eq_ok hK hcanonical
    obtain ⟨hne, htoken⟩ := isToken_quantity hK hfinite dims
    have hplain : (K.debugF64 value ++ dims.canonicalUnit).any isAtomDelimiter = false := by
      rw [List.any_eq_false]
      intro c hc
      simp [htoken c hc]
    have hspan := @Placed.of_ok _ _ (canonicalQuantityText_placed K value dims) path span _
      hcanonical path' span'
    rw [htext] at hparse
    rw [Atom.canonical, hK.unit, validateAtom, hparse]
    simp only [hfinite, hplain, List.isEmpty_eq_false_iff.mpr hne, hspan, Bool.not_true,
      Bool.false_eq_true, Bool.or_self, if_false, ne_eq, not_true_eq_false, or_self]
    rfl
  | float value => exact (validateAtom_placed K (.float value)).of_ok h path' span'
  | symbol text => exact (validateAtom_placed K (.symbol text)).of_ok h path' span'
  | keyword text => exact (validateAtom_placed K (.keyword text)).of_ok h path' span'
  | int value => rfl
  | count value unit => rfl
  | seed value => rfl
  | str text => rfl

theorem sameShape_canonical (K : Codec F D) [DecidableEq D] (kind : Atom F D) :
    kind.sameShape K (kind.canonical K) = true := by
  cases kind <;> simp [Atom.sameShape, Atom.canonical]

theorem validateAtom_float {path : String} {span : Span} {value : F}
    (h : validateAtom K path span (.float value) = .ok ()) : K.isFinite value = true := by
  rw [validateAtom] at h
  split_ifs at h with hfinite
  simpa using hfinite

/-- A valid symbol is a token that is no keyword, no seed and no number. -/
theorem classifyAtom_symbol {path : String} {span : Span} {symbol : Text}
    (h : validateAtom K path span (.symbol symbol) = .ok ()) :
    IsToken symbol ∧ ∀ span', classifyAtom K.toReaders symbol span' =
      .ok (.atom (.symbol symbol) span') := by
  rw [validateAtom] at h
  split_ifs at h with hvalid
  have hvalid : validSymbol symbol = true := by simpa using hvalid
  rw [validSymbol] at hvalid
  split_ifs at hvalid with hbad
  have hnumber : numericLead symbol = false := by simpa using hvalid
  simp only [Bool.or_eq_true, not_or, Bool.not_eq_true, List.isEmpty_eq_false_iff,
    List.any_eq_false, Option.isSome_eq_false_iff, Option.isNone_iff_eq_none, beq_eq_false_iff_ne,
    ne_eq] at hbad
  obtain ⟨⟨⟨hne, hplain⟩, hcolon⟩, hseed⟩ := hbad
  refine ⟨⟨hne, fun c hc => hplain c hc⟩, fun span' => ?_⟩
  rw [classifyAtom]
  · rw [hseed]
    simp only [hnumber, Bool.false_eq_true, if_false]
  · exact hne
  · rintro name rfl
    exact hcolon rfl

theorem classifyAtom_keyword {path : String} {span : Span} {keyword : Text}
    (h : validateAtom K path span (.keyword keyword) = .ok ()) :
    IsToken (':' :: keyword) ∧ ∀ span', classifyAtom K.toReaders (':' :: keyword) span' =
      .ok (.atom (.keyword keyword) span') := by
  rw [validateAtom] at h
  split_ifs at h with hvalid
  simp only [Bool.not_eq_false, validKeyword, Bool.and_eq_true,
    Bool.not_eq_eq_eq_not, Bool.not_true, List.isEmpty_eq_false_iff, List.any_eq_false,
    Bool.not_eq_true] at hvalid
  obtain ⟨hne, hplain⟩ := hvalid
  refine ⟨⟨by simp, ?_⟩, fun span' => ?_⟩
  · intro c hc
    obtain rfl | hc := List.mem_cons.mp hc
    · rfl
    · exact hplain c hc
  · rw [classifyAtom, if_neg hne]

end Validation

namespace Sexpr

/-- A token that the classifier takes is a leaf. -/
theorem leaf_of_token {R : Readers F D} {text : Text} {kind : Atom F D} (h : IsToken text)
    (hclass : ∀ span, classifyAtom R text span = .ok (.atom kind span)) : Leaf R text kind := by
  obtain ⟨hne, hplain⟩ := h
  obtain ⟨c, later, rfl⟩ := List.exists_cons_of_ne_nil hne
  have hc := hplain c List.mem_cons_self
  have hdelimiter : ∀ x, isAtomDelimiter x = true → c ≠ x := by
    rintro x hx rfl
    rw [hc] at hx
    cases hx
  have hquote := hdelimiter '"' rfl
  refine ⟨⟨c, rfl, ?_, hdelimiter '(' rfl, hdelimiter ')' rfl⟩, ?_⟩
  · rintro x ⟨⟩
    exact ⟨by simp [hdelimiter ' ' rfl, hdelimiter '\t' rfl, hdelimiter '\r' rfl,
      hdelimiter '\n' rfl], hdelimiter ';' rfl⟩
  · intro pos rest hended
    have hall : ∀ x ∈ c :: later, (!isAtomDelimiter x) = true := by
      intro x hx
      rw [hplain x hx]
      rfl
    have hends : ∀ x ∈ rest.head?, (!isAtomDelimiter x) = false := by
      intro x hx
      obtain hended | hended := hended
      · exact absurd (Option.some.inj hended) hquote
      · simp [hended x hx]
    obtain ⟨htaken, hdropped⟩ := takeWhile_ended hall hends
    rw [parseLeaf, if_neg (by simp [hquote]), parseAtom]
    simp only [htaken, hdropped, hclass, bind, Except.bind, pure, Except.pure]

/-- The scalars of a literal are read back up to the closing quote. -/
theorem readString_escaped (start pos : ℕ) (s rest out : Text) :
    readString start pos (s.flatMap escaped ++ '"' :: rest) out =
      (.ok (.atom (.str (out ++ s)) ⟨start, pos + utf8Length (s.flatMap escaped) + 1⟩,
        ⟨pos + utf8Length (s.flatMap escaped) + 1, rest⟩) :
        Except IrError (Node F D × Cursor)) := by
  induction s generalizing pos out with
  | nil => rw [List.flatMap_nil, List.nil_append, readString, if_pos rfl, List.append_nil]; rfl
  | cons c s ih =>
    have hshort : ∀ e, escape e = some c → escaped c = ['\\', e] → readString start pos
        ((c :: s).flatMap escaped ++ '"' :: rest) out =
          (.ok (.atom (.str (out ++ c :: s)) ⟨start, pos + utf8Length ((c :: s).flatMap escaped) + 1⟩,
            ⟨pos + utf8Length ((c :: s).flatMap escaped) + 1, rest⟩) :
            Except IrError (Node F D × Cursor)) := by
      intro e he hescaped
      have hlength : pos + utf8Length ((c :: s).flatMap escaped) =
          pos + 2 + utf8Length (s.flatMap escaped) := by
        have hsize := utf8Size_escape he
        have hbackslash : '\\'.utf8Size = 1 := rfl
        rw [List.flatMap_cons, utf8Length_append, hescaped]
        simp only [utf8Length_cons, utf8Length_nil]
        omega
      rw [hlength, List.flatMap_cons, hescaped, List.append_assoc, List.cons_append, readString,
        if_neg (by decide), if_pos rfl, List.cons_append, List.head?_cons, Option.bind_some, he,
        List.tail_cons, List.nil_append]
      dsimp only
      rw [ih, List.append_assoc]
      rfl
    by_cases hquote : c = '"'
    · subst hquote
      exact hshort '"' rfl rfl
    by_cases hbackslash : c = '\\'
    · subst hbackslash
      exact hshort '\\' rfl rfl
    by_cases hnewline : c = '\n'
    · subst hnewline
      exact hshort 'n' rfl rfl
    by_cases htab : c = '\t'
    · subst htab
      exact hshort 't' rfl rfl
    · have hescaped : escaped c = [c] := by
        simp [escaped, hquote, hbackslash, hnewline, htab]
      rw [List.flatMap_cons, hescaped, List.append_assoc, List.singleton_append, readString,
        if_neg hquote, if_neg hbackslash, ih, utf8Length_append, List.append_assoc]
      simp only [utf8Length_cons, utf8Length_nil, Nat.add_zero, Nat.add_assoc,
        List.singleton_append]

theorem leaf_quoted (R : Readers F D) (s : Text) : Leaf R (quoted s) (.str s) := by
  refine ⟨⟨'"', rfl, ?_, by decide, by decide⟩, ?_⟩
  · rintro x ⟨⟩
    decide
  · intro pos rest _
    have hlength : pos + utf8Length (quoted s) =
        pos + 1 + utf8Length (s.flatMap escaped) + 1 := by
      have hquote : '"'.utf8Size = 1 := rfl
      rw [quoted, utf8Length_cons, utf8Length_append, utf8Length_cons, utf8Length_nil]
      omega
    rw [hlength, quoted, List.cons_append, parseLeaf, if_pos (by rfl), parseString, List.tail_cons,
      List.append_assoc, List.singleton_append, readString_escaped]
    rfl

/-- The text of a valid atom is a leaf with its canonical form. -/
theorem printAtom_leaf {K : Codec F Dims} (hK : Documented K) {path : String} {span : Span}
    {kind : Atom F Dims} (hrange : kind.InRange) (h : validateAtom K path span kind = .ok ()) :
    ∃ text, printAtom K span kind = .ok text ∧ Leaf K.toReaders text (kind.canonical K) := by
  cases kind with
  | int value =>
    exact ⟨_, rfl, leaf_of_token (isToken_integerText value) (classifyAtom_integerText _ hrange)⟩
  | float value =>
    have hfinite := validateAtom_float h
    refine ⟨_, rfl, leaf_of_token ?_ (classifyAtom_debug hK hfinite)⟩
    obtain ⟨t, ht⟩ := hK.debug value hfinite
    rw [ht]
    exact t.isToken
  | qty value dims text =>
    obtain ⟨canonical, hcanonical⟩ := validateAtom_qty h
    obtain ⟨hfinite, rfl, -⟩ := canonicalQuantityText_eq_ok hK hcanonical
    refine ⟨_, hcanonical, leaf_of_token (isToken_quantity hK hfinite dims) ?_⟩
    rw [Atom.canonical, hK.unit]
    exact classifyAtom_quantity hK hcanonical
  | count value unit =>
    exact ⟨_, rfl, leaf_of_token (isToken_count value unit) (classifyAtom_count hK hrange)⟩
  | seed value =>
    exact ⟨_, rfl, leaf_of_token (isToken_seedText value) (classifyAtom_seed _ hrange)⟩
  | str text => exact ⟨_, rfl, leaf_quoted _ text⟩
  | symbol text =>
    obtain ⟨htoken, hclass⟩ := classifyAtom_symbol h
    exact ⟨_, rfl, leaf_of_token htoken hclass⟩
  | keyword text =>
    obtain ⟨htoken, hclass⟩ := classifyAtom_keyword h
    exact ⟨_, rfl, leaf_of_token htoken hclass⟩

end Sexpr

namespace Json

/-- The piece of a string that a scalar is written as. -/
def stringToken (c : Char) : StringToken :=
  if c = '"' then .short '"'
  else if c = '\\' then .short '\\'
  else if c = '\n' then .short 'n'
  else if c = '\t' then .short 't'
  else if c = '\r' then .short 'r'
  else if c.toNat < 0x20 then .unicode ((hexText c.toNat).leftpad 4 '0')
  else .unescaped c

theorem control_digits : ∀ n < 0x20, StringToken.HexDigits 4 ((hexText n).leftpad 4 '0') ∧
    hexNumber ((hexText n).leftpad 4 '0') = some n := by
  have hall : ∀ n < 0x20, ((hexText n).leftpad 4 '0').length = 4 ∧
      (((hexText n).leftpad 4 '0').all fun c => (hexValue c).isSome) = true ∧
      hexNumber ((hexText n).leftpad 4 '0') = some n := by decide +kernel
  intro n hn
  obtain ⟨hlength, hdigits, hnumber⟩ := hall n hn
  exact ⟨⟨hlength, List.all_eq_true.mp hdigits⟩, hnumber⟩

theorem stringToken_spec (c : Char) : (stringToken c).Valid ∧ (stringToken c).text = escaped c ∧
    (stringToken c).scalar = c := by
  rw [stringToken, escaped]
  split_ifs with hquote hbackslash hnewline htab hreturn hcontrol
  · exact ⟨rfl, rfl, hquote.symm⟩
  · exact ⟨rfl, rfl, hbackslash.symm⟩
  · exact ⟨rfl, rfl, hnewline.symm⟩
  · exact ⟨rfl, rfl, htab.symm⟩
  · exact ⟨rfl, rfl, hreturn.symm⟩
  · obtain ⟨hdigits, hnumber⟩ := control_digits c.toNat hcontrol
    refine ⟨⟨hdigits, ?_⟩, rfl, ?_⟩
    · intro n hn
      rw [hnumber] at hn
      cases hn
      omega
    · rw [StringToken.scalar, hnumber, Option.getD_some, Char.ofNat_toNat]
  · exact ⟨⟨Nat.le_of_not_lt hcontrol, hquote, hbackslash⟩, rfl, rfl⟩

/-- A printed string is read back wherever it stands. -/
theorem parseStringToken_printJsonString (s : Text) (pos : ℕ) (later : Text) :
    parseStringToken ⟨pos, printJsonString s ++ later⟩ = .ok (s,
      ⟨pos, pos + utf8Length (printJsonString s)⟩,
      ⟨pos + utf8Length (printJsonString s), later⟩) := by
  have hscalars : (s.map stringToken).map StringToken.scalar = s := by
    rw [List.map_map]
    exact List.map_id'' (fun c => (stringToken_spec c).2.2) s
  have htext : (s.map stringToken).flatMap StringToken.text = s.flatMap escaped := by
    rw [List.flatMap_map]
    exact List.flatMap_congr fun c _ => (stringToken_spec c).2.1
  have hquotes : Quotes (s.map stringToken) (printJsonString s) := by
    refine ⟨?_, by rw [htext]; rfl⟩
    intro token htoken
    obtain ⟨c, -, rfl⟩ := List.mem_map.mp htoken
    exact (stringToken_spec c).1
  rw [parseStringToken_quotes hquotes, hscalars]

/-- Scalars that need no escape. -/
theorem printJsonString_plain {s : Text} (h : ∀ c ∈ s, escaped c = [c]) :
    printJsonString s = '"' :: (s ++ ['"']) := by
  rw [printJsonString, List.flatMap_congr h, List.flatMap_singleton']

theorem parseNumberToken_text (R : Readers F D) {text : Text} (hne : text ≠ [])
    (hall : ∀ c ∈ text, isNumberScalar c = true) (hnumber : isRfc8259Number text = true) (pos : ℕ)
    {rest : Text} (hrest : Plain rest) : parseNumberToken R ⟨pos, text ++ rest⟩ =
      .ok (text, ⟨pos, pos + utf8Length text⟩, ⟨pos + utf8Length text, rest⟩) := by
  obtain ⟨htaken, hdropped⟩ := takeWhile_ended hall hrest
  rw [parseNumberToken]
  simp only [htaken, hdropped, hne, hnumber, Bool.not_true, Bool.false_eq_true, if_false]

theorem tagged_object (R : Readers F D) {tag : String} {value : Text} {kind : Atom F D}
    (htag : ∀ c ∈ tag.toList, escaped c = [c]) (hhead : ∃ c ∈ value.head?, isWs c = false)
    (hkind : ∀ start pos rest, Plain rest →
      parseKind R start tag.toList ⟨pos, value ++ rest⟩ =
        .ok (kind, ⟨pos + utf8Length value, rest⟩)) : Tagged R (object tag value) kind := by
  have hnone : Blank [] := by simp [Blank]
  have htext := tagged_text R hnone hnone hnone hnone ⟨'"', rfl, rfl⟩
    (fun pos rest _ => parseStringToken_printJsonString tag.toList pos rest) hhead hkind
  rw [printJsonString_plain htag] at htext
  simpa [object] using htext

theorem tagged_number (R : Readers F D) {tag : String} {text : Text} {kind : Atom F D}
    {meaning : Text → Span → Except IrError (Atom F D)}
    (htag : ∀ c ∈ tag.toList, escaped c = [c])
    (hkind : ∀ start cur, parseKind R start tag.toList cur =
      parseMeaning (parseNumberToken R) meaning cur) (hne : text ≠ [])
    (hall : ∀ c ∈ text, isNumberScalar c = true) (hnumber : isRfc8259Number text = true)
    (hmeaning : ∀ span, meaning text span = .ok kind) : Tagged R (object tag text) kind := by
  refine tagged_object R htag ?_ ?_
  · obtain ⟨c, later, rfl⟩ := List.exists_cons_of_ne_nil hne
    exact ⟨c, rfl, isWs_number (hall c List.mem_cons_self)⟩
  · intro start pos rest hrest
    rw [hkind, parseMeaning, parseNumberToken_text R hne hall hnumber pos hrest]
    simp only [hmeaning]

theorem tagged_string (R : Readers F D) {tag : String} {text : Text} {kind : Atom F D}
    {meaning : Text → Span → Except IrError (Atom F D)}
    (htag : ∀ c ∈ tag.toList, escaped c = [c])
    (hkind : ∀ start cur, parseKind R start tag.toList cur =
      parseMeaning parseStringToken meaning cur)
    (hmeaning : ∀ span, meaning text span = .ok kind) :
    Tagged R (object tag (printJsonString text)) kind := by
  refine tagged_object R htag ⟨'"', rfl, rfl⟩ ?_
  intro start pos rest _
  rw [hkind, parseMeaning, parseStringToken_printJsonString]
  simp only [hmeaning]

/-- A literal that the classifier takes and that has the kind of its tag. -/
theorem tagged_literal (R : Readers F D) {tag : String} {text : Text} {kind : Atom F D}
    (htag : tag = "q" ∨ tag = "c" ∨ tag = "seed") (hmatches : matchesTag tag.toList kind = true)
    (hclass : ∀ span, classifyAtom R text span = .ok (.atom kind span)) :
    Tagged R (object tag (printJsonString text)) kind := by
  refine @tagged_string _ _ R tag text kind (literalKind R tag.toList) ?_ ?_ ?_
  · obtain rfl | rfl | rfl := htag <;> simp [escaped]
  · intro start cur
    obtain rfl | rfl | rfl := htag <;> rfl
  · intro span
    rw [literalKind, hclass]
    exact if_pos hmatches

theorem printJsonString_seedText (v : ℕ) :
    printJsonString (seedText v) = '"' :: (seedText v ++ ['"']) := by
  have hdigits : ∀ d < 16, escaped (hexDigit d) = [hexDigit d] := by decide +kernel
  apply printJsonString_plain
  intro c hc
  rw [seedText, List.mem_cons, List.mem_cons] at hc
  obtain rfl | rfl | hc := hc
  · rfl
  · rfl
  · obtain ⟨d, hd, rfl⟩ := List.mem_map.mp hc
    exact hdigits d (radixDigits_lt (by decide) d hd)

/-- The object of a valid atom has its canonical form as its meaning. -/
theorem printAtom_tagged {K : Codec F Dims} (hK : Documented K) {path : String} {span : Span}
    {kind : Atom F Dims} (hrange : kind.InRange) (h : validateAtom K path span kind = .ok ()) :
    ∃ text, printAtom K span kind = .ok text ∧ Tagged K.toReaders text (kind.canonical K) := by
  cases kind with
  | int value =>
    refine ⟨_, rfl, tagged_number _ (by simp [escaped]) (fun _ _ => rfl) (isToken_integerText value).1
      (fun c hc => isNumberScalar_integerText hc) (isRfc8259Number_integerText value) ?_⟩
    intro span'
    rw [intKind, parseI64_integerText hrange]
    rfl
  | float value =>
    have hfinite := validateAtom_float h
    have hparse := hK.parse_debug value hfinite
    refine ⟨_, rfl, ?_⟩
    obtain ⟨t, ht⟩ := hK.debug value hfinite
    rw [ht] at hparse ⊢
    refine tagged_number _ (by simp [escaped]) (fun _ _ => rfl) t.isToken.1 (fun c hc => t.isNumberScalar hc)
      t.isRfc8259Number ?_
    intro span'
    rw [floatKind, hparse, Option.filter_some, if_pos hfinite]
    rfl
  | qty value dims text =>
    obtain ⟨canonical, hcanonical⟩ := validateAtom_qty h
    obtain ⟨hfinite, rfl, -⟩ := canonicalQuantityText_eq_ok hK hcanonical
    refine ⟨_, by rw [printAtom, hcanonical]; rfl, tagged_literal _ (Or.inl rfl) rfl ?_⟩
    rw [Atom.canonical, hK.unit]
    exact classifyAtom_quantity hK hcanonical
  | count value unit =>
    exact ⟨_, rfl, tagged_literal _ (Or.inr (Or.inl rfl)) rfl (classifyAtom_count hK hrange)⟩
  | seed value =>
    refine ⟨_, rfl, ?_⟩
    rw [← printJsonString_seedText]
    exact tagged_literal _ (Or.inr (Or.inr rfl)) rfl (classifyAtom_seed _ hrange)
  | str text =>
    have hkind : ∀ start cur, parseKind K.toReaders start "s".toList cur =
        parseMeaning parseStringToken (fun text _ => .ok (.str text)) cur := fun _ _ => rfl
    exact ⟨_, rfl, tagged_string _ (by simp [escaped]) hkind fun _ => rfl⟩
  | symbol text =>
    have hkind : ∀ start cur, parseKind K.toReaders start "sym".toList cur =
        parseMeaning parseStringToken (fun text _ => .ok (.symbol text)) cur := fun _ _ => rfl
    exact ⟨_, rfl, tagged_string _ (by simp [escaped]) hkind fun _ => rfl⟩
  | keyword text =>
    have hkind : ∀ start cur, parseKind K.toReaders start "kw".toList cur =
        parseMeaning parseStringToken (fun text _ => .ok (.keyword text)) cur := fun _ _ => rfl
    exact ⟨_, rfl, tagged_string _ (by simp [escaped]) hkind fun _ => rfl⟩

end Json

end FrankenSim.Ir
