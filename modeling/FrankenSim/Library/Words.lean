import Mathlib.Tactic

/-!
# Fixed-width words and bytes

Unsigned machine arithmetic on natural numbers: addition that is checked against
a width, and the little-endian and big-endian encodings.
-/
namespace FrankenSim.Library

/-- Addition of `width`-bit unsigned words; `none` when the sum does not fit. -/
def checkedAdd (width a b : ℕ) : Option ℕ := if a + b < 2 ^ width then some (a + b) else none

theorem checkedAdd_eq_some {width a b c : ℕ} :
    checkedAdd width a b = some c ↔ a + b = c ∧ c < 2 ^ width := by
  unfold checkedAdd
  split_ifs with h
  · constructor
    · rintro ⟨⟩
      exact ⟨rfl, h⟩
    · rintro ⟨rfl, -⟩
      rfl
  · constructor
    · rintro ⟨⟩
    · rintro ⟨rfl, hlt⟩
      exact absurd hlt h

theorem checkedAdd_eq_none {width a b : ℕ} : checkedAdd width a b = none ↔ 2 ^ width ≤ a + b := by
  unfold checkedAdd
  split_ifs with h
  · simp [h]
  · simpa using h

theorem checkedAdd_of_lt {width a b : ℕ} (h : a + b < 2 ^ width) :
    checkedAdd width a b = some (a + b) := if_pos h

/-- The largest `width`-bit word. -/
def wordMax (width : ℕ) : ℕ := 2 ^ width - 1

/-- The low `width` bytes of a number, least significant first. -/
def leBytes (width n : ℕ) : List UInt8 :=
  (List.range width).map fun i => UInt8.ofNat (n / 256 ^ i)

/-- The low `width` bytes of a number, most significant first. -/
def beBytes (width n : ℕ) : List UInt8 := (leBytes width n).reverse

def utf8 (s : String) : List UInt8 := s.toUTF8.data.toList

theorem length_utf8 (s : String) : (utf8 s).length = s.utf8ByteSize := rfl

theorem utf8_injective : Function.Injective utf8 := by
  intro s t h
  apply String.toByteArray_inj.1
  exact ByteArray.ext (Array.toList_inj.1 h)

theorem utf8_eq_flatMap (s : String) : utf8 s = s.toList.flatMap String.utf8EncodeChar := by
  change s.toByteArray.data.toList = _
  rw [← String.utf8Encode_toList, List.utf8Encode, List.data_toByteArray]

end FrankenSim.Library
