import FrankenSim.Ir.JsonString

/-!
# The syntax of JSON strings

A string is a list of pieces between quotes. The reader takes exactly the strings of the
syntax and, because the integer parser takes a plus sign, those in which an escape has a
plus sign in place of its first digit.
-/
namespace FrankenSim.Ir

namespace Json

/-- The pieces of a string between its quotes. A signed escape is none of the syntax. -/
inductive StringToken
  | unescaped (c : Char)
  | short (e : Char)
  | unicode (digits : Text)
  | pair (high low : Text)
  | signed (digits : Text)

namespace StringToken

def text : StringToken → Text
  | unescaped c => [c]
  | short e => ['\\', e]
  | unicode digits => '\\' :: 'u' :: digits
  | pair high low => '\\' :: 'u' :: (high ++ '\\' :: 'u' :: low)
  | signed digits => '\\' :: 'u' :: '+' :: digits

def scalar : StringToken → Char
  | unescaped c => c
  | short e => (shortEscape e).getD e
  | unicode digits => Char.ofNat ((hexNumber digits).getD 0)
  | pair high low => Char.ofNat (0x10000 + ((hexNumber high).getD 0 - 0xD800) * 2 ^ 10 +
      ((hexNumber low).getD 0 - 0xDC00))
  | signed digits => Char.ofNat ((hexNumber digits).getD 0)

/-- Exactly so many hexadecimal digits. -/
def HexDigits (n : ℕ) (digits : Text) : Prop :=
  digits.length = n ∧ ∀ c ∈ digits, (hexValue c).isSome

def Valid : StringToken → Prop
  | unescaped c => 0x20 ≤ c.toNat ∧ c ≠ '"' ∧ c ≠ '\\'
  | short e => (shortEscape e).isSome
  | unicode digits => HexDigits 4 digits ∧
      ∀ n, hexNumber digits = some n → ¬ (0xD800 ≤ n ∧ n ≤ 0xDFFF)
  | pair high low => HexDigits 4 high ∧ HexDigits 4 low ∧
      (∀ n, hexNumber high = some n → 0xD800 ≤ n ∧ n ≤ 0xDBFF) ∧
      ∀ n, hexNumber low = some n → 0xDC00 ≤ n ∧ n ≤ 0xDFFF
  | signed digits => HexDigits 3 digits

def isSigned : StringToken → Bool
  | signed _ => true
  | _ => false

end StringToken

/-- A text that is a string with these pieces. -/
def Quotes (tokens : List StringToken) (text : Text) : Prop :=
  (∀ token ∈ tokens, token.Valid) ∧ text = '"' :: (tokens.flatMap StringToken.text ++ ['"'])

/-- The strings of the syntax and what they denote. -/
def JsonString (text out : Text) : Prop :=
  ∃ tokens, Quotes tokens text ∧ (∀ token ∈ tokens, token.isSigned = false) ∧
    out = tokens.map StringToken.scalar

/-- A string but for escapes that have a plus sign in place of their first digit. -/
def SignedString (text : Text) : Prop :=
  ∃ tokens, Quotes tokens text ∧ ∃ token ∈ tokens, token.isSigned = true

section Hex

theorem hexValue_eq_some {c : Char} {v : ℕ} (h : hexValue c = some v) : v < 16 ∧ c.toNat < 128 := by
  have hnine : ('9').toNat = 57 ∧ ('0').toNat = 48 := ⟨rfl, rfl⟩
  have hf : ('f').toNat = 102 ∧ ('a').toNat = 97 := ⟨rfl, rfl⟩
  have hF : ('F').toNat = 70 ∧ ('A').toNat = 65 := ⟨rfl, rfl⟩
  unfold hexValue at h
  split_ifs at h with hdigit hlower hupper
  · have hle : c.toNat ≤ ('9').toNat := hdigit.2
    simp only [Option.some.injEq] at h
    omega
  · have hle : c.toNat ≤ ('f').toNat := hlower.2
    simp only [Option.some.injEq] at h
    omega
  · have hle : c.toNat ≤ ('F').toNat := hupper.2
    simp only [Option.some.injEq] at h
    omega

theorem utf8Size_ascii {c : Char} (h : c.toNat < 128) : c.utf8Size = 1 := by
  have hle : c.val ≤ 0x7F := by
    rw [UInt32.le_iff_toNat_le]
    change c.toNat ≤ 127
    omega
  simp [Char.utf8Size, hle]

theorem utf8Size_hex {c : Char} (h : (hexValue c).isSome) : c.utf8Size = 1 := by
  obtain ⟨v, hv⟩ := Option.isSome_iff_exists.1 h
  exact utf8Size_ascii (hexValue_eq_some hv).2

theorem hexNumber_from {digits : Text} {n v : ℕ}
    (h : digits.foldlM (fun n c => (hexValue c).map fun v => n * 16 + v) n = some v) :
    (∀ c ∈ digits, (hexValue c).isSome) ∧ v < (n + 1) * 16 ^ digits.length := by
  induction digits generalizing n with
  | nil =>
    cases h
    simp
  | cons c digits ih =>
    simp only [List.foldlM_cons, Option.bind_eq_bind, Option.bind_eq_some_iff,
      Option.map_eq_some_iff] at h
    obtain ⟨m, ⟨w, hw, rfl⟩, h⟩ := h
    obtain ⟨hall, hlt⟩ := ih h
    have hwlt := (hexValue_eq_some hw).1
    constructor
    · intro d hd
      rcases List.mem_cons.1 hd with rfl | hd
      · rw [hw]
        rfl
      · exact hall d hd
    · rw [List.length_cons, pow_succ]
      have hle : n * 16 + w + 1 ≤ (n + 1) * 16 := by omega
      calc v < (n * 16 + w + 1) * 16 ^ digits.length := hlt
        _ ≤ (n + 1) * 16 * 16 ^ digits.length := Nat.mul_le_mul_right _ hle
        _ = (n + 1) * (16 ^ digits.length * 16) := by ring

theorem exists_hexNumber {digits : Text} (h : ∀ c ∈ digits, (hexValue c).isSome) (n : ℕ) :
    ∃ v, digits.foldlM (fun n c => (hexValue c).map fun v => n * 16 + v) n = some v := by
  induction digits generalizing n with
  | nil => exact ⟨n, rfl⟩
  | cons c digits ih =>
    obtain ⟨w, hw⟩ := Option.isSome_iff_exists.1 (h c List.mem_cons_self)
    obtain ⟨v, hv⟩ := ih (fun d hd => h d (List.mem_cons_of_mem _ hd)) (n * 16 + w)
    refine ⟨v, ?_⟩
    rw [List.foldlM_cons, hw, Option.map_some, Option.bind_eq_bind, Option.bind_some, hv]

theorem sliceBytes_hex {digits : Text} (h : ∀ c ∈ digits, c.utf8Size = 1) (rest : Text) :
    sliceBytes digits.length (digits ++ rest) = some digits := by
  induction digits with
  | nil => cases rest <;> rfl
  | cons c digits ih =>
    have hc := h c List.mem_cons_self
    rw [List.length_cons, List.cons_append, sliceBytes, hc, if_pos (by omega), Nat.add_sub_cancel,
      ih fun d hd => h d (List.mem_cons_of_mem _ hd), Option.map_some]

theorem sliceBytes_eq_some {n : ℕ} {text slice : Text} (h : sliceBytes n text = some slice) :
    utf8Length slice = n ∧ text = slice ++ text.drop slice.length := by
  induction text generalizing n slice with
  | nil =>
    cases n <;> cases h
    exact ⟨rfl, rfl⟩
  | cons c text ih =>
    cases n with
    | zero =>
      cases h
      exact ⟨rfl, rfl⟩
    | succ n =>
      rw [sliceBytes] at h
      split at h
      case isFalse => cases h
      case isTrue hle =>
        obtain ⟨tail, htail, rfl⟩ := Option.map_eq_some_iff.1 h
        obtain ⟨hlength, hsplit⟩ := ih htail
        constructor
        · rw [utf8Length, List.map_cons, List.sum_cons]
          rw [utf8Length] at hlength
          omega
        · rw [List.length_cons, List.drop_succ_cons, List.cons_append, ← hsplit]

theorem utf8Length_ascii {text : Text} (h : ∀ c ∈ text, c.utf8Size = 1) :
    utf8Length text = text.length := by
  induction text with
  | nil => rfl
  | cons c text ih =>
    rw [utf8Length, List.map_cons, List.sum_cons, h c List.mem_cons_self, List.length_cons]
    have := ih fun d hd => h d (List.mem_cons_of_mem _ hd)
    rw [utf8Length] at this
    omega

theorem hexValue_plus : hexValue '+' = none := by decide

theorem fromStrRadix16_hex {n : ℕ} (hn : 0 < n) (hn4 : n ≤ 4) {digits : Text}
    (h : StringToken.HexDigits n digits) :
    ∃ v, hexNumber digits = some v ∧ v < 16 ^ n ∧ fromStrRadix16 digits = some v ∧
      fromStrRadix16 ('+' :: digits) = some v := by
  obtain ⟨hlength, hall⟩ := h
  obtain ⟨v, hv⟩ := exists_hexNumber hall 0
  have hlt := (hexNumber_from hv).2
  rw [zero_add, one_mul, hlength] at hlt
  have hbound : v < 65536 := by
    have hle : 16 ^ n ≤ 16 ^ 4 := Nat.pow_le_pow_right (by norm_num) hn4
    exact hlt.trans_le hle
  have hne : digits ≠ [] := by
    rintro rfl
    simp only [List.length_nil] at hlength
    omega
  have hhead : digits.head? ≠ some '+' := by
    intro hhead
    have hmem := hall _ (List.mem_of_head? hhead)
    rw [hexValue_plus] at hmem
    cases hmem
  refine ⟨v, hv, hlt, ?_, ?_⟩
  · simp [fromStrRadix16, hhead, hne, hexNumber, hv, hbound]
  · simp [fromStrRadix16, hne, hexNumber, hv, hbound]

/-- What the integer parser takes: digits, or a plus sign and digits. -/
theorem fromStrRadix16_eq_some {text : Text} {v : ℕ} (h : fromStrRadix16 text = some v) :
    ((∀ c ∈ text, (hexValue c).isSome) ∧ hexNumber text = some v) ∨
      ∃ digits, text = '+' :: digits ∧ (∀ c ∈ digits, (hexValue c).isSome) ∧
        hexNumber digits = some v := by
  unfold fromStrRadix16 at h
  simp only [Option.bind_eq_bind, Option.bind_eq_some_iff, Option.some.injEq] at h
  obtain ⟨-, -, value, hvalue, -, -, rfl⟩ := h
  split at hvalue
  case isTrue hhead =>
    cases text with
    | nil => cases hhead
    | cons c digits =>
      cases hhead
      exact Or.inr ⟨digits, rfl, (hexNumber_from hvalue).1, hvalue⟩
  case isFalse => exact Or.inl ⟨(hexNumber_from hvalue).1, hvalue⟩

/-- Four bytes that the integer parser takes are four digits, or a plus sign and three. -/
theorem fourDigits {text slice : Text} {v : ℕ} (hslice : sliceBytes 4 text = some slice)
    (h : fromStrRadix16 slice = some v) :
    text = slice ++ text.drop 4 ∧ ((StringToken.HexDigits 4 slice ∧ hexNumber slice = some v) ∨
      ∃ digits, slice = '+' :: digits ∧ StringToken.HexDigits 3 digits ∧
        hexNumber digits = some v) := by
  obtain ⟨hbytes, hsplit⟩ := sliceBytes_eq_some hslice
  have hplus : ('+').utf8Size = 1 := by decide
  rcases fromStrRadix16_eq_some h with ⟨hall, hv⟩ | ⟨digits, rfl, hall, hv⟩
  · rw [utf8Length_ascii fun c hc => utf8Size_hex (hall c hc)] at hbytes
    rw [hbytes] at hsplit
    exact ⟨hsplit, Or.inl ⟨⟨hbytes, hall⟩, hv⟩⟩
  · have hascii : ∀ c ∈ '+' :: digits, c.utf8Size = 1 := by
      intro c hc
      rcases List.mem_cons.1 hc with rfl | hc
      · exact hplus
      · exact utf8Size_hex (hall c hc)
    rw [utf8Length_ascii hascii] at hbytes
    rw [hbytes] at hsplit
    refine ⟨hsplit, Or.inr ⟨digits, rfl, ⟨?_, hall⟩, hv⟩⟩
    simpa using hbytes

end Hex

section Escapes

variable {pos stop : ℕ}

theorem charFromU32_eq {n : ℕ} (h : n < 0xD800 ∨ 0xDFFF < n ∧ n < 0x110000) :
    charFromU32 n = some (Char.ofNat n) := if_pos h

theorem eq_of_charFromU32 {n : ℕ} {c : Char} (h : charFromU32 n = some c) : c = Char.ofNat n := by
  unfold charFromU32 at h
  split at h
  · exact (Option.some.inj h).symm
  · cases h

theorem readEscape_token {token : StringToken} (hvalid : token.Valid)
    (hescape : ∀ c, token ≠ .unescaped c) (rest : Text) :
    readEscape pos stop (token.text.tail ++ rest) = .ok (token.scalar, token.text.tail.length) := by
  cases token with
  | unescaped c => exact absurd rfl (hescape c)
  | short e =>
    obtain ⟨c, hc⟩ := Option.isSome_iff_exists.1 hvalid
    have hu : e ≠ 'u' := by
      rintro rfl
      cases hc
    simp only [StringToken.text, List.tail_cons, StringToken.scalar, List.cons_append,
      List.nil_append, List.length_singleton]
    unfold readEscape
    split
    case h_1 heq =>
      cases heq
      exact absurd rfl hu
    case h_2 => simp [hc]
  | unicode digits =>
    obtain ⟨hhex, hscalar⟩ := hvalid
    obtain ⟨v, hv, hlt, hread, -⟩ := fromStrRadix16_hex (by norm_num) (by norm_num) hhex
    have hslice := sliceBytes_hex (fun c hc => utf8Size_hex (hhex.2 c hc)) rest
    rw [hhex.1] at hslice
    have hnot := hscalar v hv
    have hhigh : ¬ (0xD800 ≤ v ∧ v ≤ 0xDBFF) := by omega
    have hlow : ¬ (0xDC00 ≤ v ∧ v ≤ 0xDFFF) := by omega
    have hchar := charFromU32_eq (show v < 0xD800 ∨ 0xDFFF < v ∧ v < 0x110000 by omega)
    simp only [StringToken.text, List.tail_cons, StringToken.scalar, List.cons_append, readEscape,
      hslice, Option.bind_some, hread, if_neg hhigh, if_neg hlow, hchar, hv, Option.getD_some,
      List.length_cons, hhex.1]
  | pair high low =>
    obtain ⟨hhex, hhex', hrange, hrange'⟩ := hvalid
    obtain ⟨v, hv, -, hread, -⟩ := fromStrRadix16_hex (by norm_num) (by norm_num) hhex
    obtain ⟨w, hw, -, hread', -⟩ := fromStrRadix16_hex (by norm_num) (by norm_num) hhex'
    have hslice := sliceBytes_hex (fun c hc => utf8Size_hex (hhex.2 c hc))
      ('\\' :: 'u' :: (low ++ rest))
    have hslice' := sliceBytes_hex (fun c hc => utf8Size_hex (hhex'.2 c hc)) rest
    rw [hhex.1] at hslice
    rw [hhex'.1] at hslice'
    have hv' := hrange v hv
    have hw' := hrange' w hw
    have hdrop : (high ++ '\\' :: 'u' :: (low ++ rest)).drop 4 = '\\' :: 'u' :: (low ++ rest) := by
      rw [← hhex.1, List.drop_left]
    have hchar : charFromU32 (0x10000 + (v - 0xD800) <<< 10 + (w - 0xDC00)) =
        some (Char.ofNat (0x10000 + (v - 0xD800) * 2 ^ 10 + (w - 0xDC00))) := by
      rw [Nat.shiftLeft_eq]
      apply charFromU32_eq
      omega
    simp only [StringToken.text, List.tail_cons, StringToken.scalar, List.cons_append,
      List.append_assoc, readEscape, hslice, Option.bind_some, hread, if_pos hv', hdrop, readLow,
      hslice', hread', if_pos hw', hchar, hv, hw, Option.getD_some, List.length_cons,
      List.length_append, hhex.1, hhex'.1]
  | signed digits =>
    obtain ⟨v, hv, hlt, -, hread⟩ := fromStrRadix16_hex (by norm_num) (by norm_num) hvalid
    have hascii : ∀ c ∈ '+' :: digits, c.utf8Size = 1 := by
      intro c hc
      rcases List.mem_cons.1 hc with rfl | hc
      · decide
      · exact utf8Size_hex (hvalid.2 c hc)
    have hslice := sliceBytes_hex hascii rest
    rw [List.length_cons, hvalid.1] at hslice
    have hhigh : ¬ (0xD800 ≤ v ∧ v ≤ 0xDBFF) := by omega
    have hlow : ¬ (0xDC00 ≤ v ∧ v ≤ 0xDFFF) := by omega
    have hchar := charFromU32_eq (show v < 0xD800 ∨ 0xDFFF < v ∧ v < 0x110000 by omega)
    simp only [List.cons_append] at hslice
    simp only [StringToken.text, List.tail_cons, StringToken.scalar, List.cons_append, readEscape,
      hslice, Option.bind_some, hread, if_neg hhigh, if_neg hlow, hchar, hv, Option.getD_some,
      List.length_cons, hvalid.1]

/-- What the reader takes as the low half of a pair is one. -/
theorem readLow_eq_ok {span : Span} {high rest : Text} {code taken : ℕ} {c : Char}
    (hhigh : StringToken.HexDigits 4 high) (hcode : hexNumber high = some code)
    (hrange : 0xD800 ≤ code ∧ code ≤ 0xDBFF) (h : readLow span code rest = .ok (c, taken)) :
    ∃ low, (StringToken.pair high low).Valid ∧ c = (StringToken.pair high low).scalar ∧
      taken = 11 ∧ rest = '\\' :: 'u' :: (low ++ rest.drop 6) := by
  unfold readLow at h
  split at h
  case h_2 => cases h
  case h_1 lowDigits =>
    split at h
    case h_1 => cases h
    case h_2 low hlow =>
      obtain ⟨slice, hslice, hlow⟩ := Option.bind_eq_some_iff.1 hlow
      obtain ⟨hsplit, hdigits⟩ := fourDigits hslice hlow
      split at h
      case isFalse => cases h
      case isTrue hin =>
        have hvalid : StringToken.HexDigits 4 slice ∧ hexNumber slice = some low := by
          rcases hdigits with hdigits | ⟨digits, -, hhex, hv⟩
          · exact hdigits
          · have hlt := (hexNumber_from hv).2
            rw [hhex.1] at hlt
            omega
        refine ⟨slice, ⟨hhigh, hvalid.1, ?_, ?_⟩, ?_⟩
        · intro n hn
          rw [hcode] at hn
          cases hn
          exact hrange
        · intro n hn
          rw [hvalid.2] at hn
          cases hn
          exact hin
        · split at h
          case h_2 => cases h
          case h_1 hchar =>
            simp only [Except.ok.injEq, Prod.mk.injEq] at h
            obtain ⟨rfl, rfl⟩ := h
            refine ⟨?_, rfl, ?_⟩
            · rw [eq_of_charFromU32 hchar, StringToken.scalar, hcode, hvalid.2, Option.getD_some,
                Option.getD_some, Nat.shiftLeft_eq]
            · rw [List.drop_succ_cons, List.drop_succ_cons, ← hsplit]

/-- What the reader takes as an escape is one, but for a plus sign. -/
theorem readEscape_eq_ok {rest : Text} {c : Char} {taken : ℕ}
    (h : readEscape pos stop rest = .ok (c, taken)) :
    ∃ token : StringToken, token.Valid ∧ c = token.scalar ∧
      '\\' :: rest = token.text ++ rest.drop taken := by
  unfold readEscape at h
  split at h
  case h_1 digits =>
    split at h
    case h_1 => cases h
    case h_2 code hcode =>
      obtain ⟨slice, hslice, hcode⟩ := Option.bind_eq_some_iff.1 hcode
      obtain ⟨hsplit, hdigits⟩ := fourDigits hslice hcode
      split at h
      case isTrue hhigh =>
        have hvalid : StringToken.HexDigits 4 slice ∧ hexNumber slice = some code := by
          rcases hdigits with hdigits | ⟨digits, -, hhex, hv⟩
          · exact hdigits
          · have hlt := (hexNumber_from hv).2
            rw [hhex.1] at hlt
            omega
        obtain ⟨low, hpair, hscalar, rfl, hlow⟩ := readLow_eq_ok hvalid.1 hvalid.2 hhigh h
        refine ⟨.pair slice low, hpair, hscalar, ?_⟩
        have hdrop : digits.drop 10 = (digits.drop 4).drop 6 := by rw [List.drop_drop]
        conv_lhs => rw [hsplit, hlow]
        simp only [StringToken.text, List.drop_succ_cons, hdrop, List.cons_append, List.append_assoc]
      case isFalse hhigh =>
        split at h
        case isTrue => cases h
        case isFalse hlow =>
          split at h
          case h_2 => cases h
          case h_1 hchar =>
            simp only [Except.ok.injEq, Prod.mk.injEq] at h
            obtain ⟨rfl, rfl⟩ := h
            rcases hdigits with ⟨hhex, hv⟩ | ⟨signed, rfl, hhex, hv⟩
            · refine ⟨.unicode slice, ⟨hhex, ?_⟩, ?_, ?_⟩
              · intro n hn
                rw [hv, Option.some.injEq] at hn
                omega
              · rw [eq_of_charFromU32 hchar, StringToken.scalar, hv, Option.getD_some]
              · conv_lhs => rw [hsplit]
                rfl
            · refine ⟨.signed signed, hhex, ?_, ?_⟩
              · rw [eq_of_charFromU32 hchar, StringToken.scalar, hv, Option.getD_some]
              · conv_lhs => rw [hsplit]
                rfl
  case h_2 =>
    split at h
    case h_2 => cases h
    case h_1 hshort =>
      simp only [Except.ok.injEq, Prod.mk.injEq] at h
      obtain ⟨rfl, rfl⟩ := h
      obtain ⟨e, he, hc⟩ := Option.bind_eq_some_iff.1 hshort
      cases rest with
      | nil => cases he
      | cons e' rest =>
        cases he
        refine ⟨.short e, by rw [StringToken.Valid, hc]; rfl, ?_, rfl⟩
        rw [StringToken.scalar, hc, Option.getD_some]

end Escapes

section Loop

theorem text_eq_cons {token : StringToken} (hescape : ∀ c, token ≠ .unescaped c) :
    token.text = '\\' :: token.text.tail := by
  cases token with
  | unescaped c => exact absurd rfl (hescape c)
  | _ => rfl

theorem utf8Length_escape {token : StringToken} (hvalid : token.Valid)
    (hescape : ∀ c, token ≠ .unescaped c) :
    utf8Length token.text.tail = token.text.tail.length := by
  apply utf8Length_ascii
  have hhex : ∀ {n : ℕ} {digits : Text}, StringToken.HexDigits n digits →
      ∀ c ∈ digits, c.utf8Size = 1 := fun h c hc => utf8Size_hex (h.2 c hc)
  have hmark : 'u'.utf8Size = 1 := rfl
  have hslash : '\\'.utf8Size = 1 := rfl
  have hplus : '+'.utf8Size = 1 := rfl
  cases token with
  | unescaped c => exact absurd rfl (hescape c)
  | short e =>
    obtain ⟨c, hc⟩ := Option.isSome_iff_exists.1 hvalid
    intro x hx
    rw [List.mem_singleton.1 hx]
    unfold shortEscape at hc
    split at hc
    case h_9 => cases hc
    all_goals rfl
  | unicode digits =>
    simp only [StringToken.text, List.tail_cons, List.forall_mem_cons]
    exact ⟨hmark, hhex hvalid.1⟩
  | pair high low =>
    simp only [StringToken.text, List.tail_cons, List.forall_mem_cons, List.forall_mem_append]
    exact ⟨hmark, hhex hvalid.1, hslash, hmark, hhex hvalid.2.1⟩
  | signed digits =>
    simp only [StringToken.text, List.tail_cons, List.forall_mem_cons]
    exact ⟨hmark, hplus, hhex hvalid⟩

theorem readScalars_tokens {tokens : List StringToken} (hvalid : ∀ token ∈ tokens, token.Valid)
    (start pos : ℕ) (later out : Text) :
    readScalars start pos (tokens.flatMap StringToken.text ++ '"' :: later) out =
      .ok (out ++ tokens.map StringToken.scalar,
        ⟨start, pos + utf8Length (tokens.flatMap StringToken.text) + 1⟩,
        ⟨pos + utf8Length (tokens.flatMap StringToken.text) + 1, later⟩) := by
  induction tokens generalizing pos out with
  | nil =>
    rw [List.flatMap_nil, List.nil_append, readScalars, if_pos rfl, List.map_nil, List.append_nil,
      utf8Length_nil, Nat.add_zero]
  | cons token tokens ih =>
    have ih := ih fun t ht => hvalid t (List.mem_cons_of_mem _ ht)
    have htoken := hvalid token List.mem_cons_self
    rw [List.flatMap_cons, List.append_assoc, utf8Length_append, List.map_cons,
      ← Nat.add_assoc, List.append_cons out]
    by_cases hescape : ∀ c, token ≠ .unescaped c
    · have hlength : pos + utf8Length token.text = pos + 1 + token.text.tail.length := by
        rw [text_eq_cons hescape, utf8Length_cons, List.tail_cons,
          utf8Length_escape htoken hescape, ← Nat.add_assoc]
        rfl
      rw [hlength, ← ih]
      rw [text_eq_cons hescape, List.cons_append, readScalars, if_neg (by decide), if_pos rfl,
        readEscape_token htoken hescape]
      dsimp only
      rw [List.drop_left]
      rfl
    · push Not at hescape
      obtain ⟨c, rfl⟩ := hescape
      obtain ⟨hscalar, hquote, hslash⟩ := htoken
      rw [← ih, StringToken.text, List.singleton_append, readScalars, if_neg hquote, if_neg hslash,
        if_neg (by omega)]
      rfl

/-- What is read up to the closing quote are pieces of a string. -/
theorem readScalars_eq_ok {start pos : ℕ} {rest out result : Text} {span : Span} {cur : Cursor}
    (h : readScalars start pos rest out = .ok (result, span, cur)) :
    ∃ tokens : List StringToken, (∀ token ∈ tokens, token.Valid) ∧
      rest = tokens.flatMap StringToken.text ++ '"' :: cur.rest ∧
      result = out ++ tokens.map StringToken.scalar := by
  induction hn : rest.length using Nat.strong_induction_on generalizing rest pos out with
  | _ n ih =>
    cases rest with
    | nil =>
      rw [readScalars] at h
      cases h
    | cons c later =>
      rw [readScalars] at h
      split at h
      case isTrue hquote =>
        cases h
        exact ⟨[], by simp, by simp [hquote], by simp⟩
      case isFalse hquote =>
        split at h
        case isTrue hslash =>
          split at h
          case h_1 => cases h
          case h_2 scalar taken hread =>
            obtain ⟨token, hvalid, rfl, htext⟩ := readEscape_eq_ok hread
            have hlt : (later.drop taken).length < n := by
              rw [← hn, List.length_drop, List.length_cons]
              omega
            obtain ⟨tokens, htokens, hrest, hresult⟩ := ih _ hlt h rfl
            refine ⟨token :: tokens, ?_, ?_, ?_⟩
            · intro t ht
              rcases List.mem_cons.1 ht with rfl | ht
              · exact hvalid
              · exact htokens t ht
            · rw [hslash, htext, hrest, List.flatMap_cons, List.append_assoc]
            · rw [hresult, List.append_assoc, List.map_cons, List.singleton_append]
        case isFalse hslash =>
          split at h
          case isTrue => cases h
          case isFalse hcontrol =>
            have hlt : later.length < n := by
              rw [← hn, List.length_cons]
              omega
            obtain ⟨tokens, htokens, hrest, hresult⟩ := ih _ hlt h rfl
            refine ⟨.unescaped c :: tokens, ?_, ?_, ?_⟩
            · intro t ht
              rcases List.mem_cons.1 ht with rfl | ht
              · exact ⟨by omega, hquote, hslash⟩
              · exact htokens t ht
            · rw [hrest, List.flatMap_cons, List.append_assoc]
              rfl
            · rw [hresult, List.append_assoc, List.map_cons, List.singleton_append]
              rfl

def headToken : Text → Option StringToken
  | '\\' :: 'u' :: '+' :: rest => some (.signed (rest.take 3))
  | '\\' :: 'u' :: rest =>
    if (hexNumber (rest.take 4)).any fun n => 0xD800 ≤ n ∧ n ≤ 0xDFFF then
      some (.pair (rest.take 4) ((rest.drop 6).take 4))
    else some (.unicode (rest.take 4))
  | '\\' :: e :: _ => some (.short e)
  | c :: _ => some (.unescaped c)
  | [] => none

theorem headToken_digits {digits : Text} (h : StringToken.HexDigits 4 digits) (rest : Text) :
    headToken ('\\' :: 'u' :: (digits ++ rest)) =
      if (hexNumber digits).any fun n => 0xD800 ≤ n ∧ n ≤ 0xDFFF then
        some (.pair digits ((rest.drop 2).take 4))
      else some (.unicode digits) := by
  obtain ⟨hlength, hall⟩ := h
  have htake : (digits ++ rest).take 4 = digits := by rw [← hlength, List.take_left]
  have hdrop : (digits ++ rest).drop 6 = rest.drop 2 := by
    rw [List.drop_append, hlength, List.drop_of_length_le (by omega), List.nil_append]
  cases digits with
  | nil => cases hlength
  | cons d digits =>
    have hd := hall d List.mem_cons_self
    rw [List.cons_append, headToken]
    · rw [← List.cons_append, htake, hdrop]
    · rintro later heq
      cases heq
      cases hd

theorem headToken_text {token : StringToken} (h : token.Valid) (rest : Text) :
    headToken (token.text ++ rest) = some token := by
  cases token with
  | unescaped c =>
    rw [StringToken.text, List.singleton_append]
    unfold headToken
    split
    case h_4 heq =>
      cases heq
      rfl
    case h_5 heq => cases heq
    all_goals
      rename_i heq
      cases heq
      exact absurd rfl h.2.2
  | short e =>
    have hu : e ≠ 'u' := by
      rintro rfl
      cases h
    rw [StringToken.text, List.cons_append, List.singleton_append]
    unfold headToken
    split
    case h_3 heq =>
      cases heq
      rfl
    case h_4 hother heq =>
      cases heq
      exact absurd rfl (hother e rest rfl)
    case h_5 heq => cases heq
    all_goals
      rename_i heq
      cases heq
      exact absurd rfl hu
  | unicode digits =>
    obtain ⟨hhex, hscalar⟩ := h
    obtain ⟨v, hv⟩ := exists_hexNumber hhex.2 0
    have hnot := hscalar v hv
    have hnone : ¬ (hexNumber digits).any (fun n => 0xD800 ≤ n ∧ n ≤ 0xDFFF) = true := by
      rw [hexNumber, hv]
      simpa using hnot
    rw [StringToken.text, List.cons_append, List.cons_append, headToken_digits hhex, if_neg hnone]
  | pair high low =>
    obtain ⟨hhex, hhex', hrange, -⟩ := h
    obtain ⟨v, hv⟩ := exists_hexNumber hhex.2 0
    have hin := hrange v hv
    have hsome : (hexNumber high).any (fun n => 0xD800 ≤ n ∧ n ≤ 0xDFFF) = true := by
      rw [hexNumber, hv]
      simp only [Option.any_some, Bool.decide_and, Bool.and_eq_true, decide_eq_true_eq]
      omega
    have htake : (low ++ rest).take 4 = low := by rw [← hhex'.1, List.take_left]
    rw [StringToken.text, List.cons_append, List.cons_append, List.append_assoc,
      headToken_digits hhex, if_pos hsome]
    simp only [List.cons_append, List.drop_succ_cons, List.drop_zero, htake]
  | signed digits =>
    have htake : (digits ++ rest).take 3 = digits := by rw [← h.1, List.take_left]
    rw [StringToken.text, List.cons_append, List.cons_append, List.cons_append, headToken, htake]

/-- The pieces of a string are determined by its text. -/
theorem tokens_unique {tokens tokens' : List StringToken} (h : ∀ token ∈ tokens, token.Valid)
    (h' : ∀ token ∈ tokens', token.Valid) {rest rest' : Text}
    (heq : tokens.flatMap StringToken.text ++ '"' :: rest =
      tokens'.flatMap StringToken.text ++ '"' :: rest') : tokens = tokens' := by
  have hquote : ∀ {token : StringToken} {later later' : Text}, token.Valid →
      token.text ++ later ≠ '"' :: later' := by
    intro token later later' hvalid heq
    have hhead := headToken_text hvalid later
    rw [heq] at hhead
    cases hhead
    exact hvalid.2.1 rfl
  induction tokens generalizing tokens' with
  | nil =>
    cases tokens' with
    | nil => rfl
    | cons token' tokens' =>
      rw [List.flatMap_cons, List.append_assoc] at heq
      exact absurd heq.symm (hquote (h' token' List.mem_cons_self))
  | cons token tokens ih =>
    cases tokens' with
    | nil =>
      rw [List.flatMap_cons, List.append_assoc] at heq
      exact absurd heq (hquote (h token List.mem_cons_self))
    | cons token' tokens' =>
      rw [List.flatMap_cons, List.flatMap_cons, List.append_assoc, List.append_assoc] at heq
      have hhead := headToken_text (h token List.mem_cons_self)
        (tokens.flatMap StringToken.text ++ '"' :: rest)
      rw [heq, headToken_text (h' token' List.mem_cons_self)] at hhead
      cases hhead
      rw [ih (fun t ht => h t (List.mem_cons_of_mem _ ht))
        (fun t ht => h' t (List.mem_cons_of_mem _ ht)) (List.append_cancel_left heq)]

end Loop

theorem parseStringToken_quote (pos : ℕ) (rest : Text) :
    parseStringToken ⟨pos, '"' :: rest⟩ = readScalars pos (pos + 1) rest [] := by
  simp [parseStringToken, expect, bind, Except.bind]

/-- A string is read wherever it stands. -/
theorem parseStringToken_quotes {tokens : List StringToken} {text : Text} (h : Quotes tokens text)
    (pos : ℕ) (later : Text) :
    parseStringToken ⟨pos, text ++ later⟩ = .ok (tokens.map StringToken.scalar,
      ⟨pos, pos + utf8Length text⟩, ⟨pos + utf8Length text, later⟩) := by
  obtain ⟨hvalid, rfl⟩ := h
  have hlength : pos + utf8Length ('"' :: (tokens.flatMap StringToken.text ++ ['"'])) =
      pos + 1 + utf8Length (tokens.flatMap StringToken.text) + 1 := by
    rw [utf8Length_cons, utf8Length_append, ← Nat.add_assoc, ← Nat.add_assoc]
    rfl
  rw [List.cons_append, List.append_assoc, parseStringToken_quote, List.singleton_append,
    readScalars_tokens hvalid, hlength, List.nil_append]

theorem parseStringToken_eq_ok {cur next : Cursor} {out : Text} {span : Span}
    (h : parseStringToken cur = .ok (out, span, next)) :
    ∃ tokens text, cur.rest = text ++ next.rest ∧ Quotes tokens text ∧
      out = tokens.map StringToken.scalar := by
  obtain ⟨pos, rest⟩ := cur
  cases rest with
  | nil => cases h
  | cons c rest =>
    by_cases hc : c = '"'
    · subst hc
      rw [parseStringToken_quote] at h
      obtain ⟨tokens, hvalid, htext, hout⟩ := readScalars_eq_ok h
      refine ⟨tokens, '"' :: (tokens.flatMap StringToken.text ++ ['"']), ?_, ⟨hvalid, rfl⟩, hout⟩
      simp [htext]
    · simp [parseStringToken, expect, hc, bind, Except.bind] at h

/-- The reader accepts the strings of the syntax and those with signed escapes. -/
theorem parseStringToken_iff (cur : Cursor) (out : Text) :
    (∃ span cur', parseStringToken cur = .ok (out, span, cur')) ↔
      ∃ tokens text later, cur.rest = text ++ later ∧ Quotes tokens text ∧
        out = tokens.map StringToken.scalar := by
  constructor
  · rintro ⟨span, cur', h⟩
    obtain ⟨tokens, text, hrest, hquotes, hout⟩ := parseStringToken_eq_ok h
    exact ⟨tokens, text, cur'.rest, hrest, hquotes, hout⟩
  · rintro ⟨tokens, text, later, hrest, hquotes, rfl⟩
    have hread := parseStringToken_quotes hquotes cur.pos later
    rw [← hrest] at hread
    exact ⟨_, _, hread⟩

/-- The reader returns a text at a position exactly when it is the one that a string of the
syntax denotes there. -/
def ReadsStrings (cur : Cursor) : Prop :=
  ∀ out, (∃ span cur', parseStringToken cur = .ok (out, span, cur')) ↔
    ∃ text later, cur.rest = text ++ later ∧ JsonString text out

/-- The reader follows the syntax everywhere but at strings with signed escapes. -/
theorem readsStrings_iff (cur : Cursor) :
    ReadsStrings cur ↔ ¬ ∃ text later, cur.rest = text ++ later ∧ SignedString text := by
  constructor
  · rintro hreads ⟨text, later, hrest, tokens, hquotes, token, hmem, hsigned⟩
    have haccepted := (parseStringToken_iff cur _).2 ⟨tokens, text, later, hrest, hquotes, rfl⟩
    obtain ⟨text', later', hrest', tokens', hquotes', hplain, -⟩ := (hreads _).1 haccepted
    have hsame : tokens = tokens' := by
      apply tokens_unique hquotes.1 hquotes'.1
      have heq := hrest.symm.trans hrest'
      rw [hquotes.2, hquotes'.2] at heq
      simpa using heq
    rw [hsame] at hmem
    rw [hplain token hmem] at hsigned
    cases hsigned
  · intro hnone out
    rw [parseStringToken_iff]
    constructor
    · rintro ⟨tokens, text, later, hrest, hquotes, rfl⟩
      refine ⟨text, later, hrest, tokens, hquotes, ?_, rfl⟩
      intro token hmem
      rw [← Bool.not_eq_true]
      exact fun hsigned => hnone ⟨text, later, hrest, tokens, hquotes, token, hmem, hsigned⟩
    · rintro ⟨text, later, hrest, tokens, hquotes, -, hout⟩
      exact ⟨tokens, text, later, hrest, hquotes, hout⟩

/-- A plus sign instead of a digit is read as a scalar. -/
theorem not_readsStrings_plus : ¬ ReadsStrings ⟨0, "\"\\u+041\"".toList⟩ := by
  rw [readsStrings_iff, not_not]
  refine ⟨"\"\\u+041\"".toList, [], by simp, [.signed "041".toList], ⟨?_, by decide⟩,
    .signed "041".toList, List.mem_singleton_self _, rfl⟩
  intro token hmem
  rw [List.mem_singleton.1 hmem]
  simp [StringToken.Valid, StringToken.HexDigits, hexValue]

end Json

end FrankenSim.Ir
