import FrankenSim.Ir.Ast

/-!
# Numeric atoms

A token with a numeric lead is an integer, a floating-point number, a count or a quantity,
tried in this order. A decimal count denotes exactly the number that its text denotes.
-/
namespace FrankenSim.Ir

open Library

variable {F D : Type}

/-- The front of a text without a suffix. -/
def stripSuffix (suffix text : Text) : Option Text :=
  if suffix.isSuffixOf text then some (text.take (text.length - suffix.length)) else none

/-- A quoted token, cut when it is long. -/
def tokenPreview (R : Readers F D) (text : Text) : String :=
  if utf8Length text ≤ 160 then R.debug text
  else R.debug (takeBytes 160 text) ++ "... (" ++ toString (utf8Length text) ++ " bytes)"

/-- The suffixes of counts, in the order in which they are tried. -/
def countSuffixes : List (Text × CountUnit) :=
  [("cores".toList, .cores), ("KiB".toList, .kib), ("MiB".toList, .mib), ("GiB".toList, .gib),
    ("B".toList, .b)]

def parseI64 (text : Text) : Option ℤ := do
  let value ← signedValue text
  if -2 ^ 63 ≤ value ∧ value < 2 ^ 63 then some value else none

/-- A quantity, when nothing else fits. -/
def classifyQuantity (R : Readers F D) (text : Text) (span : Span) : Except IrError (Node F D) :=
  match R.parseQty text with
  | .ok (value, dims) => .ok (.atom (.qty value dims text) span)
  | .error e => .error ⟨span, .badQuantity,
      tokenPreview R text ++ " is not an int, float, quantity, or count: " ++ e,
      "numeric tokens must fully parse; e.g. 0.12Pa*s, 65deg, 384GiB, 2e-2"⟩

def classifyNumeric (R : Readers F D) (text : Text) (span : Span) : Except IrError (Node F D) :=
  match parseI64 text with
  | some i => .ok (.atom (.int i) span)
  | none =>
    match R.parseF64 text with
    | some f =>
      if R.isFinite f then .ok (.atom (.float f) span)
      else .error ⟨span, .badNumber, tokenPreview R text ++ " is not finite",
        "IR literals must be finite"⟩
    | none =>
      match countSuffixes.findSome? fun s => (stripSuffix s.1 text).map fun digits => (digits, s.2) with
      | some (digits, unit) =>
        if digits ≠ [] ∧ digits.all Char.isDigit then
          match checkedU128 (digitsValue digits) with
          | some v => .ok (.atom (.count (.exact v) unit) span)
          | none => .error ⟨span, .badNumber,
              tokenPreview R text ++ " exceeds the exact count range (u128)",
              "integer count literals are exact; this one cannot be represented"⟩
        else
          match DecimalCount.parse digits with
          | some value => .ok (.atom (.count (.fractional value) unit) span)
          | none => classifyQuantity R text span
      | none => classifyQuantity R text span

section Parse

theorem scanDigits_digit {c : Char} {body rest : Text} {s s' : DecimalScan} (hc : c.isDigit = true)
    (h : scanDigits s (c :: body) = some (s', rest)) :
    s.significand * 10 + (c.toNat - '0'.toNat) < 2 ^ 128 ∧
      scanDigits ⟨s.significand * 10 + (c.toNat - '0'.toNat),
        s.fractionalDigits + if s.sawDecimal then 1 else 0, true, s.sawDecimal⟩ body =
        some (s', rest) := by
  rw [scanDigits, if_pos hc] at h
  simp only [Option.bind_eq_bind, Option.bind_eq_some_iff, checkedU128, checkedI32,
    checked_eq_some] at h
  obtain ⟨_, ⟨rfl, -⟩, _, ⟨rfl, hlt⟩, fractional, hfractional, h⟩ := h
  refine ⟨hlt, ?_⟩
  cases hpoint : s.sawDecimal with
  | true =>
    rw [hpoint, if_pos rfl, checked_eq_some] at hfractional
    rw [hpoint] at h
    rw [if_pos rfl, hfractional.1]
    exact h
  | false =>
    rw [hpoint, if_neg (by simp)] at hfractional
    cases hfractional
    rw [hpoint] at h
    rw [if_neg (by simp), add_zero]
    exact h

/-- What the digit loop has read, digits before and after the point together. -/
structure Scanned (s : DecimalScan) (whole fraction rest : Text) (s' : DecimalScan) (rest' : Text) :
    Prop where
  rest_eq : rest' = rest
  significand : s'.significand = (whole ++ fraction).foldl
    (fun n c => n * 10 + (c.toNat - '0'.toNat)) s.significand
  fractionalDigits : s'.fractionalDigits = s.fractionalDigits + fraction.length
  sawDigit : s'.sawDigit = true ↔ s.sawDigit = true ∨ whole ++ fraction ≠ []
  bounded : s.significand < 2 ^ 128 → s'.significand < 2 ^ 128

theorem scanned_fraction {body rest : Text} {s s' : DecimalScan} (hpoint : s.sawDecimal = true)
    (h : scanDigits s body = some (s', rest)) :
    Scanned s [] (body.takeWhile Char.isDigit) (body.dropWhile Char.isDigit) s' rest := by
  induction body generalizing s with
  | nil =>
    cases h
    exact ⟨rfl, rfl, by simp, by simp, id⟩
  | cons c body ih =>
    by_cases hc : c.isDigit
    · obtain ⟨hlt, h⟩ := scanDigits_digit hc h
      have hscan := ih (by exact hpoint) h
      rw [List.takeWhile_cons_of_pos hc, List.dropWhile_cons_of_pos hc]
      refine ⟨hscan.rest_eq, hscan.significand, ?_, ?_, fun _ => hscan.bounded hlt⟩
      · rw [hscan.fractionalDigits, if_pos hpoint]
        push_cast [List.length_cons]
        ring
      · rw [hscan.sawDigit]
        simp
    · rw [scanDigits, if_neg hc, if_neg (by simp [hpoint])] at h
      cases h
      rw [List.takeWhile_cons_of_neg hc, List.dropWhile_cons_of_neg hc]
      exact ⟨rfl, rfl, by simp, by simp, id⟩

theorem scanned_number {body rest : Text} {s s' : DecimalScan} (hpoint : s.sawDecimal = false)
    (h : scanDigits s body = some (s', rest)) :
    Scanned s (body.takeWhile Char.isDigit) (splitFraction (body.dropWhile Char.isDigit)).1
      (splitFraction (body.dropWhile Char.isDigit)).2 s' rest := by
  induction body generalizing s with
  | nil =>
    cases h
    exact ⟨rfl, rfl, by simp [splitFraction], by simp [splitFraction], id⟩
  | cons c body ih =>
    by_cases hc : c.isDigit
    · obtain ⟨hlt, h⟩ := scanDigits_digit hc h
      have hscan := ih (by exact hpoint) h
      rw [List.takeWhile_cons_of_pos hc, List.dropWhile_cons_of_pos hc]
      refine ⟨hscan.rest_eq, hscan.significand, ?_, ?_, fun _ => hscan.bounded hlt⟩
      · rw [hscan.fractionalDigits, if_neg (by simp [hpoint]), add_zero]
      · rw [hscan.sawDigit]
        simp
    · rw [List.takeWhile_cons_of_neg hc, List.dropWhile_cons_of_neg hc]
      rw [scanDigits, if_neg hc] at h
      by_cases hdot : c = '.'
      · subst hdot
        rw [if_pos ⟨rfl, by simp [hpoint]⟩] at h
        have hscan := scanned_fraction (by rfl) h
        exact ⟨hscan.rest_eq, hscan.significand, hscan.fractionalDigits, hscan.sawDigit,
          hscan.bounded⟩
      · rw [if_neg (by simp [hdot])] at h
        cases h
        have hnone : splitFraction (c :: body) = ([], c :: body) := by
          unfold splitFraction
          split
          · rename_i heq
            cases heq
            exact absurd rfl hdot
          · rfl
        rw [hnone]
        exact ⟨rfl, rfl, by simp, by simp, id⟩

theorem scanExponent_value {text : Text} {written : ℤ} {saw : Bool}
    (h : scanExponent text = some (written, saw, [])) : exponentValue text = some written := by
  cases text with
  | nil =>
    cases h
    rfl
  | cons mark rest =>
    rw [scanExponent] at h
    rw [exponentValue]
    split at h
    case isFalse => cases h
    case isTrue hmark =>
      rw [if_pos hmark]
      have hparts : (takeSign rest).1 ++ (takeSign rest).2 = rest := by
        cases rest with
        | nil => rfl
        | cons c rest =>
          rw [takeSign]
          split <;> rfl
      simp only [Option.bind_eq_bind, Option.bind_eq_some_iff, checkedI32, checked_eq_some,
        Option.some.injEq, Prod.mk.injEq] at h
      obtain ⟨-, -, value, hvalue, _, ⟨rfl, -⟩, rfl, -, hrest⟩ := h
      have hall : (takeSign rest).2.takeWhile Char.isDigit = (takeSign rest).2 := by
        have hsplit := @List.takeWhile_append_dropWhile _ Char.isDigit (takeSign rest).2
        rwa [hrest, List.append_nil] at hsplit
      rw [hall, hparts] at hvalue
      exact hvalue

/-- Moving the trailing zeros keeps the number. -/
theorem stripZeros_value {s s' : ℕ} {e e' : ℤ} (hs : 0 < s) (h : stripZeros s e = some (s', e'))
    (negative : Bool) :
    decimal negative s' e' = decimal negative s e ∧ ¬ 10 ∣ s' ∧ 0 < s' ∧ s' ≤ s := by
  induction s using Nat.strong_induction_on generalizing e with
  | _ s ih =>
    rw [stripZeros] at h
    split at h
    case isTrue hzero =>
      simp only [Option.bind_eq_some_iff, checkedI32, checked_eq_some] at h
      obtain ⟨_, ⟨rfl, -⟩, h⟩ := h
      obtain ⟨hvalue, hreduced, hpos, hle⟩ := ih (s / 10) (by omega) (by omega) h
      refine ⟨?_, hreduced, hpos, by omega⟩
      rw [hvalue]
      have hmul : (s : ℚ) = (s / 10 : ℕ) * 10 := by
        have : s = s / 10 * 10 := by omega
        exact_mod_cast this
      rw [decimal, decimal, hmul, zpow_add_one₀ (by norm_num)]
      ring
    case isFalse hnonzero =>
      cases h
      refine ⟨rfl, ?_, hs, le_rfl⟩
      intro hdvd
      exact hnonzero ⟨hs, Nat.mod_eq_zero_of_dvd hdvd⟩

/-- An accepted text denotes the number of its decimal, which is in normal form. -/
theorem parse_value {text : Text} {d : DecimalCount} (h : DecimalCount.parse text = some d) :
    writtenValue text = some d.value ∧ d.Normal := by
  simp only [DecimalCount.parse, Option.bind_eq_bind, Option.bind_eq_some_iff, checkedI32,
    checked_eq_some] at h
  obtain ⟨⟨s, rest⟩, hscan, _, hdigit, ⟨written, saw, rest'⟩, hexponent, _, hend, _, ⟨rfl, -⟩, h⟩ := h
  have hdigit : s.sawDigit = true := by simpa [guard] using hdigit
  have hend : rest' = [] := by
    by_contra hne
    simp [guard, hne] at hend
  subst hend
  have hscan := scanned_number rfl hscan
  have hvalue := scanExponent_value hexponent
  have hsome : (splitSign text).2.takeWhile Char.isDigit ++
      (splitFraction ((splitSign text).2.dropWhile Char.isDigit)).1 ≠ [] := by
    simpa using hscan.sawDigit.1 hdigit
  have hbound := hscan.bounded (by norm_num)
  have hsignificand : s.significand = digitsValue ((splitSign text).2.takeWhile Char.isDigit ++
      (splitFraction ((splitSign text).2.dropWhile Char.isDigit)).1) := hscan.significand
  have hwritten : writtenValue text =
      some (decimal (splitSign text).1 s.significand (written - s.fractionalDigits)) := by
    rw [hscan.rest_eq] at hvalue
    have hfraction := hscan.fractionalDigits
    rw [zero_add] at hfraction
    rw [writtenValue]
    simp only [if_neg hsome, hvalue, Option.map_some, hsignificand, hfraction]
  rw [hwritten]
  split at h
  case isTrue hzero =>
    cases h
    refine ⟨?_, ?_, by norm_num⟩
    · rw [DecimalCount.value, decimal_eq_zero.2 hzero, decimal_eq_zero.2 rfl]
    · exact ⟨fun _ => ⟨rfl, rfl⟩, fun hne => absurd rfl hne⟩
  case isFalse hne =>
    simp only [Option.bind_eq_some_iff] at h
    obtain ⟨⟨significand, exponent10⟩, hstrip, h⟩ := h
    cases h
    obtain ⟨hsame, hreduced, hpos, hle⟩ :=
      stripZeros_value (Nat.pos_of_ne_zero hne) hstrip (splitSign text).1
    refine ⟨by rw [DecimalCount.value, hsame], ?_, hle.trans_lt hbound⟩
    exact ⟨fun hzero => absurd hzero hpos.ne', fun _ => hreduced⟩

/-- Decimals in normal form are equal exactly when their numbers are. -/
theorem value_injective {d d' : DecimalCount} (h : d.Normal) (h' : d'.Normal) :
    d.value = d'.value ↔ d = d' := by
  constructor
  · intro heq
    obtain ⟨hneg, hsig, hexp⟩ := decimal_injective h.normal h'.normal heq
    cases d
    cases d'
    simp_all
  · rintro rfl
    rfl

end Parse

/-- A count that the classifier produces is a bare integer or a decimal in normal form. -/
theorem classifyNumeric_count {R : Readers F D} {text : Text} {span span' : Span} {v : CountValue}
    {unit : CountUnit} (h : classifyNumeric R text span = .ok (.atom (.count v unit) span')) :
    ∀ d, v = .fractional d → d.Normal := by
  have hquantity : classifyQuantity R text span ≠ .ok (.atom (.count v unit) span') := by
    rw [classifyQuantity]
    split <;> simp
  rw [classifyNumeric] at h
  rintro d rfl
  split at h
  · simp at h
  · split at h
    · split at h <;> simp at h
    · split at h
      · rename_i digits unit' _
        split at h
        · split at h <;> simp at h
        · split at h
          · rename_i value hparse
            simp only [Except.ok.injEq, Node.atom.injEq, Atom.count.injEq,
              CountValue.fractional.injEq] at h
            rw [← h.1.1]
            exact (parse_value hparse).2
          · exact absurd h hquantity
      · exact absurd h hquantity

/-- Count literals are exact: a decimal is the number that is written, equal decimals are equal
numbers, and a conversion to bytes gives the byte count whenever it is one in range. -/
theorem count_literals_exact :
    (∀ text d, DecimalCount.parse text = some d → writtenValue text = some d.value) ∧
    (∀ text text' d d', DecimalCount.parse text = some d → DecimalCount.parse text' = some d' →
      (writtenValue text = writtenValue text' ↔ d = d')) ∧
    ∀ {F D : Type} (R : Readers F D) text span v unit span',
      classifyNumeric R text span = .ok (.atom (.count v unit) span') →
      ∀ (unit' : CountUnit) (n : ℕ), v.integralBytes unit' = some n ↔
        ∃ shift, unit'.byteShift = some shift ∧ v.number * 2 ^ shift = n ∧ n < 2 ^ 64 := by
  refine ⟨fun text d h => (parse_value h).1, ?_, ?_⟩
  · intro text text' d d' h h'
    rw [(parse_value h).1, (parse_value h').1, Option.some.injEq]
    exact value_injective (parse_value h).2 (parse_value h').2
  · intro F D R text span v unit span' h unit' n
    exact integralBytes_eq_some (classifyNumeric_count h) unit' n

/-- Readers without floating-point numbers and quantities. -/
def noReaders : Readers Unit Unit :=
  ⟨fun _ => none, fun _ => true, fun _ => .error "", String.ofList⟩

/-- A kibibyte and a half. -/
theorem count_literals_kib : CountValue.integralBytes (.fractional ⟨false, 15, -1⟩) .kib = some 1536 ∧
    writtenValue "+1.50".toList = writtenValue "15e-1".toList := by
  obtain ⟨-, hsame, hbytes⟩ := count_literals_exact
  have hparse : DecimalCount.parse "+1.50".toList = some ⟨false, 15, -1⟩ := by decide +kernel
  have hparse' : DecimalCount.parse "15e-1".toList = some ⟨false, 15, -1⟩ := by decide +kernel
  have hclass : classifyNumeric noReaders "+1.50KiB".toList ⟨0, 8⟩ =
      .ok (.atom (.count (.fractional ⟨false, 15, -1⟩) .kib) ⟨0, 8⟩) := by
    have hint : parseI64 "+1.50KiB".toList = none := by decide +kernel
    have hfloat : noReaders.parseF64 "+1.50KiB".toList = none := rfl
    have hsuffix : (countSuffixes.findSome? fun s => (stripSuffix s.1 "+1.50KiB".toList).map
        fun digits => (digits, s.2)) = some ("+1.50".toList, .kib) := by decide +kernel
    have hbare : ¬ ("+1.50".toList ≠ [] ∧ "+1.50".toList.all Char.isDigit) := by decide +kernel
    simp only [classifyNumeric, hint, hfloat, hsuffix, if_neg hbare, hparse]
  refine ⟨?_, (hsame _ _ _ _ hparse hparse').2 rfl⟩
  rw [hbytes noReaders _ _ _ _ _ hclass]
  refine ⟨10, rfl, ?_, by norm_num⟩
  norm_num [CountValue.number, DecimalCount.value, decimal]

end FrankenSim.Ir
