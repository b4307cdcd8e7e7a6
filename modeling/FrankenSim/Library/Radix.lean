import FrankenSim.Library.Decimals

/-!
# Numbers written in a base

The digits of a number, the most significant first, read back by the usual fold. A decimal
text has digits only, and starts with a zero only when it is the text of zero.
-/
namespace FrankenSim.Library

/-- The digits of a number in a base, without leading zeros. -/
def radixDigits (base n : ℕ) : List ℕ :=
  if base ≤ 1 ∨ n < base then [n] else radixDigits base (n / base) ++ [n % base]
termination_by n
decreasing_by
  rename_i h
  rw [not_or, not_le, not_lt] at h
  exact Nat.div_lt_self (by omega) h.1

theorem foldl_radixDigits {base : ℕ} (n : ℕ) :
    (radixDigits base n).foldl (fun v d => v * base + d) 0 = n := by
  fun_induction radixDigits base n with
  | case1 n h => simp
  | case2 n h ih =>
    rw [List.foldl_append, ih]
    exact Nat.div_add_mod' n base

theorem radixDigits_lt {base n : ℕ} (hbase : 1 < base) : ∀ d ∈ radixDigits base n, d < base := by
  fun_induction radixDigits base n with
  | case1 n h =>
    intro d hd
    rw [List.mem_singleton.mp hd]
    exact h.resolve_left (Nat.not_le_of_lt hbase)
  | case2 n h ih =>
    intro d hd
    obtain hd | hd := List.mem_append.mp hd
    · exact ih d hd
    · rw [List.mem_singleton.mp hd]
      exact Nat.mod_lt n (Nat.zero_lt_of_lt hbase)

/-- The first digit is a zero in zero only. -/
theorem radixDigits_head {base n : ℕ} (hbase : 1 < base) :
    ∃ d rest, radixDigits base n = d :: rest ∧ (d = 0 → n = 0 ∧ rest = []) := by
  fun_induction radixDigits base n with
  | case1 n h => exact ⟨n, [], rfl, fun hn => ⟨hn, rfl⟩⟩
  | case2 n h ih =>
    rw [not_or, not_le, not_lt] at h
    obtain ⟨d, rest, heq, hzero⟩ := ih
    refine ⟨d, rest ++ [n % base], by rw [heq, List.cons_append], ?_⟩
    intro hd
    have hpos := Nat.div_pos h.2 (Nat.zero_lt_of_lt hbase)
    omega

/-- The character of a decimal digit. -/
def digitChar (d : ℕ) : Char := Char.ofNat ('0'.toNat + d)

/-- A natural number in decimal notation. -/
def decimalText (n : ℕ) : List Char := (radixDigits 10 n).map digitChar

/-- An integer in decimal notation. -/
def integerText (z : ℤ) : List Char :=
  if z < 0 then '-' :: decimalText z.natAbs else decimalText z.natAbs

theorem digitChar_spec : ∀ d < 10, (digitChar d).isDigit = true ∧
    (digitChar d).toNat - '0'.toNat = d ∧ (digitChar d = '0' → d = 0) := by
  decide

theorem isDigit_decimalText {n : ℕ} {c : Char} (h : c ∈ decimalText n) : c.isDigit = true := by
  obtain ⟨d, hd, rfl⟩ := List.mem_map.mp h
  exact (digitChar_spec d (radixDigits_lt (by decide) d hd)).1

theorem decimalText_head (n : ℕ) :
    ∃ c rest, decimalText n = c :: rest ∧ (c = '0' → n = 0 ∧ rest = []) := by
  obtain ⟨d, rest, heq, hzero⟩ := @radixDigits_head 10 n (by decide)
  refine ⟨digitChar d, rest.map digitChar, by rw [decimalText, heq, List.map_cons], ?_⟩
  intro hc
  have hd := radixDigits_lt (by decide) d (heq ▸ List.mem_cons_self)
  obtain ⟨hn, hrest⟩ := hzero ((digitChar_spec d hd).2.2 hc)
  exact ⟨hn, by rw [hrest, List.map_nil]⟩

theorem decimalText_ne_nil (n : ℕ) : decimalText n ≠ [] := by
  obtain ⟨c, rest, heq, -⟩ := decimalText_head n
  rw [heq]
  exact List.cons_ne_nil c rest

/-- The last character of a decimal text is a digit. -/
theorem decimalText_last (n : ℕ) : ∃ front c, decimalText n = front ++ [c] ∧ c.isDigit = true := by
  obtain hnil | ⟨front, c, heq⟩ := List.eq_nil_or_concat (decimalText n)
  · exact absurd hnil (decimalText_ne_nil n)
  · rw [List.concat_eq_append] at heq
    have hc : c ∈ decimalText n := by simp [heq]
    exact ⟨front, c, heq, isDigit_decimalText hc⟩

theorem digitsValue_decimalText (n : ℕ) : digitsValue (decimalText n) = n := by
  have hfold : ∀ (ds : List ℕ) (v : ℕ), (∀ d ∈ ds, d < 10) →
      (ds.map digitChar).foldl (fun n c => n * 10 + (c.toNat - '0'.toNat)) v =
        ds.foldl (fun v d => v * 10 + d) v := by
    intro ds
    induction ds with
    | nil => exact fun _ _ => rfl
    | cons d ds ih =>
      intro v hds
      rw [List.map_cons, List.foldl_cons, List.foldl_cons,
        (digitChar_spec d (hds d List.mem_cons_self)).2.1]
      exact ih _ fun c hc => hds c (List.mem_cons_of_mem d hc)
  rw [digitsValue, decimalText, hfold _ _ fun d hd => radixDigits_lt (by decide) d hd]
  exact foldl_radixDigits n

theorem splitSign_digits {text : List Char} (h : ∀ c ∈ text, c.isDigit = true) :
    splitSign text = (false, text) := by
  unfold splitSign
  split
  · exact absurd (h '-' List.mem_cons_self) (by decide)
  · exact absurd (h '+' List.mem_cons_self) (by decide)
  · rfl

/-- An integer is read back from its text. -/
theorem signedValue_integerText (z : ℤ) : signedValue (integerText z) = some z := by
  have hall : (decimalText z.natAbs).all Char.isDigit = true :=
    List.all_eq_true.mpr fun c hc => isDigit_decimalText hc
  have hdigits : decimalText z.natAbs ≠ [] ∧ (decimalText z.natAbs).all Char.isDigit = true :=
    ⟨decimalText_ne_nil _, hall⟩
  by_cases hneg : z < 0
  · rw [integerText, if_pos hneg, signedValue]
    simp only [splitSign, if_pos hdigits, if_true, digitsValue_decimalText]
    congr 1
    omega
  · rw [integerText, if_neg hneg, signedValue]
    simp only [splitSign_digits fun c hc => isDigit_decimalText hc, if_pos hdigits,
      Bool.false_eq_true, if_false, digitsValue_decimalText]
    congr 1
    omega

end FrankenSim.Library
