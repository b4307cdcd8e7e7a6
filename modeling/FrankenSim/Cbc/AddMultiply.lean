import FrankenSim.Cbc.LimbKernel
import Mathlib.Data.List.GetD

/-!
# An add-multiply is exact

In every phase the limbs, the carry and the rows that are still to come denote one total.
A turn keeps it, never leaves the vectors and brings the cursor closer to its end.
-/
namespace FrankenSim.Cbc

open Library

theorem one_lt_radix : 1 < RADIX := by decide

/-- The operands of an add-multiply, the limbs that it may use and the total it denotes. -/
structure Operation where
  src : List ℕ
  words : List ℕ
  factorLen : ℕ
  cap : ℕ
  total : ℕ
  src_lt : ∀ x ∈ src, x < RADIX
  words_lt : ∀ x ∈ words, x < RADIX
  factorLen_le : factorLen ≤ words.length
  src_ne_nil : src ≠ []
  factorLen_pos : 0 < factorLen
  fits : src.length + factorLen ≤ cap
  total_lt : total < RADIX ^ cap

namespace Operation

variable (op : Operation)

def factor : List ℕ := op.words.take op.factorLen

def rowsAfter (i : ℕ) : ℕ :=
  Nat.ofDigits RADIX op.factor * RADIX ^ (i + 1) * Nat.ofDigits RADIX (op.src.drop (i + 1))

/-- What row `i` still adds from column `j` on. -/
def rowFrom (i j : ℕ) : ℕ :=
  op.src.getD i 0 * RADIX ^ (i + j) * Nat.ofDigits RADIX (op.factor.drop j)

/-- What the limbs denote when the operation is done. -/
def pending (s : KernelState) : ℕ :=
  let cursor := s.cursor
  match cursor.kind with
  | .zeroFill => Nat.ofDigits RADIX s.dst + op.rowFrom 0 0 + op.rowsAfter 0
  | .addMultiplyCell =>
    Nat.ofDigits RADIX s.dst + cursor.carry * RADIX ^ (cursor.srcPos + cursor.factorPos) +
      op.rowFrom cursor.srcPos cursor.factorPos + op.rowsAfter cursor.srcPos
  | .addMultiplyDrain =>
    Nat.ofDigits RADIX s.dst + cursor.carry * RADIX ^ cursor.dstPos + op.rowsAfter cursor.srcPos

/-- Where the cursor may stand in each phase. -/
def Placed (s : KernelState) : Prop :=
  let cursor := s.cursor
  match cursor.kind with
  | .zeroFill => cursor.dstPos = s.dst.length ∧ cursor.srcPos = 0 ∧ cursor.factorPos = 0 ∧
      cursor.carry = 0
  | .addMultiplyCell => cursor.srcPos + cursor.factorPos ≤ s.dst.length ∧
      cursor.dstPos ≤ op.cap
  | .addMultiplyDrain => cursor.srcPos + op.factorLen ≤ cursor.dstPos ∧
      cursor.dstPos ≤ s.dst.length

/-- What holds between two turns. -/
structure Valid (s : KernelState) : Prop where
  version : s.cursor.version = LIMB_CURSOR_VERSION
  cap_le : op.cap ≤ s.cursor.limit
  fillTo_le : s.cursor.fillTo ≤ op.cap
  limbs_lt : ∀ x ∈ s.dst, x < RADIX
  length_le : s.dst.length ≤ op.cap
  carry_lt : s.cursor.carry < RADIX
  srcPos_lt : s.cursor.srcPos < op.src.length
  factorPos_le : s.cursor.factorPos ≤ op.factorLen
  placed : op.Placed s
  pending_eq : op.pending s = op.total

structure Done (s : KernelState) : Prop where
  limbs_lt : ∀ x ∈ s.dst, x < RADIX
  length_le : s.dst.length ≤ op.cap
  committed : addMultiplyCommitted s.cursor op.src.length = true
  value_eq : Nat.ofDigits RADIX s.dst = op.total

/-- More than the turns of one row. -/
def rowTurns (cursor : LimbCursor) : ℕ := op.factorLen + cursor.limit + 3

/-- The turns that are left, at most. -/
def measure (s : KernelState) : ℕ :=
  let cursor := s.cursor
  let rows := (op.src.length - cursor.srcPos - 1) * op.rowTurns cursor
  match cursor.kind with
  | .zeroFill => rows + op.factorLen + cursor.limit + 3 + (cursor.fillTo - cursor.dstPos)
  | .addMultiplyCell => rows + (op.factorLen - cursor.factorPos) + (cursor.limit + 2)
  | .addMultiplyDrain => rows + (cursor.limit - cursor.dstPos) + 1

variable {op}

theorem limbAt_of_lt {l : List ℕ} {i : ℕ} (hi : i < l.length) : limbAt l i = .ok l[i] := by
  rw [limbAt, List.getElem?_eq_getElem hi]

theorem grown_spec {dst : List ℕ} {d : ℕ} (hd : d ≤ dst.length) (hdst : ∀ x ∈ dst, x < RADIX) :
    d < (grown dst d).length ∧ (grown dst d).length = max dst.length (d + 1) ∧
      (∀ x ∈ grown dst d, x < RADIX) ∧
        Nat.ofDigits RADIX (grown dst d) = Nat.ofDigits RADIX dst := by
  unfold grown
  split
  · have hlength : dst.length = d := by omega
    refine ⟨by simp [hlength], by simp [hlength], ?_, ofDigits_concat_zero _ _⟩
    intro x hx
    rw [List.mem_append, List.mem_singleton] at hx
    obtain hx | rfl := hx
    · exact hdst x hx
    · exact Nat.zero_lt_of_lt one_lt_radix
  · exact ⟨by omega, by omega, hdst, rfl⟩

theorem set_lt {dst : List ℕ} (hdst : ∀ x ∈ dst, x < RADIX) (d wide : ℕ) :
    ∀ x ∈ dst.set d (wide % RADIX), x < RADIX := by
  intro x hx
  obtain hx | rfl := List.mem_or_eq_of_mem_set hx
  · exact hdst x hx
  · exact Nat.mod_lt _ (Nat.zero_lt_of_lt one_lt_radix)

/-- A product of limbs, a limb and a carry fit a machine word, and so does the next carry. -/
theorem wide_lt {a f d carry : ℕ} (ha : a < RADIX) (hf : f < RADIX) (hd : d < RADIX)
    (hcarry : carry < RADIX) : a * f + d + carry < RADIX * RADIX := by
  have hproduct : a * f ≤ (RADIX - 1) * (RADIX - 1) :=
    Nat.mul_le_mul (by omega) (by omega)
  have hsquare : (RADIX - 1) * (RADIX - 1) + (RADIX - 1) + (RADIX - 1) < RADIX * RADIX := by
    decide
  omega

theorem carry_lt_of_wide {wide : ℕ} (h : wide < RADIX * RADIX) : wide / RADIX < RADIX :=
  Nat.div_lt_of_lt_mul h

theorem turn_zeroFill {dst : List ℕ} {cursor : LimbCursor} (hkind : cursor.kind = .zeroFill)
    (h : op.Valid ⟨dst, cursor⟩) :
    ∃ t, turn op.src op.words op.factorLen ⟨dst, cursor⟩ = .ok t ∧
      t.Descends op.Valid op.Done op.measure ⟨dst, cursor⟩ := by
  obtain ⟨hversion, hcap, hfill, hlimbs, hlength, hcarry, hsrc, hfactor, hplaced, hpending⟩ := h
  simp only [Placed, pending, hkind] at hplaced hpending hfill
  obtain ⟨hdst, hsrcPos, hfactorPos, hzero⟩ := hplaced
  by_cases hdone : cursor.fillTo ≤ cursor.dstPos
  · refine ⟨.next ⟨dst, { cursor with kind := .addMultiplyCell, dstPos := 0 }⟩,
      by simp [turn, hkind, hdone], ⟨?_, ?_⟩⟩
    · constructor <;> try assumption
      · simp [Placed, hsrcPos, hfactorPos]
      · simpa [pending, hsrcPos, hfactorPos, hzero] using hpending
    · simp only [measure, hkind, rowTurns]
      omega
  · refine ⟨.cell ⟨dst ++ [0], { cursor with dstPos := cursor.dstPos + 1 }⟩, ?_, ⟨?_, ?_⟩⟩
    · simp only [turn, hkind]
      rw [if_neg hdone, if_pos hdst]
    · constructor <;> try assumption
      · intro x hx
        rw [List.mem_append, List.mem_singleton] at hx
        obtain hx | rfl := hx
        · exact hlimbs x hx
        · exact Nat.zero_lt_of_lt one_lt_radix
      · simp only [List.length_append, List.length_singleton]
        omega
      · simp [Placed, hkind, hdst, hsrcPos, hfactorPos, hzero]
      · simpa [pending, hkind] using hpending
    · simp only [measure, hkind, rowTurns]
      omega

theorem factor_getElem {j : ℕ} (hj : j < op.factorLen) (hword : j < op.words.length) :
    ∃ hfactor : j < op.factor.length, op.factor[j] = op.words[j] := by
  have hlength : op.factor.length = op.factorLen := List.length_take_of_le op.factorLen_le
  exact ⟨by omega, by simp [factor]⟩

theorem rowFrom_eq {i j : ℕ} (hi : i < op.src.length) (hj : j < op.factorLen)
    (hword : j < op.words.length) :
    op.rowFrom i j = op.src[i] * op.words[j] * RADIX ^ (i + j) + op.rowFrom i (j + 1) := by
  obtain ⟨hfactor, heq⟩ := factor_getElem hj hword
  rw [rowFrom, rowFrom, ofDigits_drop RADIX hfactor, heq, List.getD_eq_getElem _ _ hi]
  ring

theorem rowFrom_end (i : ℕ) : op.rowFrom i op.factorLen = 0 := by
  have hlength : op.factor.length = op.factorLen := List.length_take_of_le op.factorLen_le
  rw [rowFrom, List.drop_eq_nil_of_le hlength.le]
  simp

theorem rowsAfter_eq {i : ℕ} (hi : i + 1 < op.src.length) :
    op.rowsAfter i = op.rowFrom (i + 1) 0 + op.rowsAfter (i + 1) := by
  rw [rowsAfter, rowsAfter, rowFrom, ofDigits_drop RADIX hi, List.getD_eq_getElem _ _ hi,
    List.drop_zero]
  ring

theorem rowsAfter_last {i : ℕ} (hi : op.src.length ≤ i + 1) : op.rowsAfter i = 0 := by
  rw [rowsAfter, List.drop_eq_nil_of_le hi]
  simp

theorem words_getElem_lt {j : ℕ} (hword : j < op.words.length) : op.words[j] < RADIX :=
  op.words_lt _ (List.getElem_mem _)

theorem turn_eq_cell {dst : List ℕ} {cursor : LimbCursor}
    (hkind : cursor.kind = .addMultiplyCell) (hi : cursor.srcPos < op.src.length)
    (hj : cursor.factorPos < op.factorLen) (hword : cursor.factorPos < op.words.length)
    (hroom : dst.length ≤ cursor.srcPos + cursor.factorPos →
      cursor.srcPos + cursor.factorPos < cursor.limit)
    (hd : cursor.srcPos + cursor.factorPos <
      (grown dst (cursor.srcPos + cursor.factorPos)).length) {wide : ℕ}
    (hwide : wide = op.src[cursor.srcPos] *
      op.words[cursor.factorPos] +
        (grown dst (cursor.srcPos + cursor.factorPos))[cursor.srcPos + cursor.factorPos] +
          cursor.carry) (hfits : wide < RADIX * RADIX) :
    turn op.src op.words op.factorLen ⟨dst, cursor⟩ = .ok (.cell
      ⟨(grown dst (cursor.srcPos + cursor.factorPos)).set (cursor.srcPos + cursor.factorPos)
        (wide % RADIX),
        { cursor with carry := wide / RADIX, factorPos := cursor.factorPos + 1 }⟩) := by
  subst hwide
  simp only [turn, hkind]
  rw [if_neg (by omega), if_neg (by omega), limbAt_of_lt hi,
    limbAt_of_lt (hj.trans_le op.factorLen_le), limbAt_of_lt hd]
  simp only [bind, Except.bind, fitsU64, if_pos hfits]

theorem turn_cell {dst : List ℕ} {cursor : LimbCursor} (hkind : cursor.kind = .addMultiplyCell)
    (h : op.Valid ⟨dst, cursor⟩) :
    ∃ t, turn op.src op.words op.factorLen ⟨dst, cursor⟩ = .ok t ∧
      t.Descends op.Valid op.Done op.measure ⟨dst, cursor⟩ := by
  obtain ⟨hversion, hcap, hfill, hlimbs, hlength, hcarry, hsrc, hfactor, hplaced, hpending⟩ := h
  simp only [Placed, pending, hkind] at hplaced hpending hsrc hfactor hcarry hcap hlimbs hlength
  obtain ⟨hdst, hdstPos⟩ := hplaced
  have hfits := op.fits
  by_cases hdone : op.factorLen ≤ cursor.factorPos
  · have hend : cursor.factorPos = op.factorLen := by omega
    refine ⟨.next ⟨dst, { cursor with
        kind := .addMultiplyDrain, dstPos := cursor.srcPos + op.factorLen }⟩,
      by simp [turn, hkind, hdone], ⟨?_, ?_⟩⟩
    · constructor <;> try assumption
      · simp only [Placed]
        omega
      · rw [hend, rowFrom_end] at hpending
        simpa [pending] using hpending
    · simp only [measure, hkind, rowTurns]
      omega
  · have hj : cursor.factorPos < op.factorLen := by omega
    obtain ⟨hd, hgrown, hgrownLt, hvalue⟩ := grown_spec hdst hlimbs
    have hword : cursor.factorPos < op.words.length := hj.trans_le op.factorLen_le
    have hwide := wide_lt (op.src_lt _ (List.getElem_mem hsrc)) (words_getElem_lt hword)
      (hgrownLt _ (List.getElem_mem hd)) hcarry
    have hturn := ofDigits_set_mod RADIX (op.src[cursor.srcPos] * op.words[cursor.factorPos] +
      (grown dst (cursor.srcPos + cursor.factorPos))[cursor.srcPos + cursor.factorPos] +
        cursor.carry) hd
    refine ⟨_, turn_eq_cell hkind hsrc hj hword (by omega) hd rfl hwide, ⟨?_, ?_⟩⟩
    · constructor <;> try assumption
      · exact set_lt hgrownLt _ _
      · rw [List.length_set, hgrown]
        omega
      · exact carry_lt_of_wide hwide
      · simp only [Placed, hkind, List.length_set]
        omega
      · simp only [pending, hkind]
        rw [rowFrom_eq hsrc hj hword] at hpending
        rw [hvalue] at hturn
        have hassoc : cursor.srcPos + (cursor.factorPos + 1) =
          cursor.srcPos + cursor.factorPos + 1 := by omega
        rw [hassoc]
        rw [add_mul, add_mul] at hturn
        omega
    · simp only [measure, hkind, rowTurns]
      omega

/-- A carry that is still open lies below the cap. -/
theorem dstPos_lt_cap {dst : List ℕ} {cursor : LimbCursor}
    (hkind : cursor.kind = .addMultiplyDrain) (h : op.Valid ⟨dst, cursor⟩)
    (hcarry : cursor.carry ≠ 0) : cursor.dstPos < op.cap := by
  have hpending := h.pending_eq
  simp only [pending, hkind] at hpending
  have hle : RADIX ^ cursor.dstPos ≤ cursor.carry * RADIX ^ cursor.dstPos :=
    Nat.le_mul_of_pos_left _ (by omega)
  have hlt : RADIX ^ cursor.dstPos < RADIX ^ op.cap := by
    have := op.total_lt
    omega
  exact (Nat.pow_lt_pow_iff_right one_lt_radix).1 hlt

theorem turn_eq_drain {dst : List ℕ} {cursor : LimbCursor}
    (hkind : cursor.kind = .addMultiplyDrain) (hi : cursor.srcPos < op.src.length)
    (hcarry : cursor.carry ≠ 0) (hroom : cursor.dstPos < cursor.limit)
    (hd : cursor.dstPos < (grown dst cursor.dstPos).length) {wide : ℕ}
    (hwide : wide = (grown dst cursor.dstPos)[cursor.dstPos] + cursor.carry)
    (hfits : wide < RADIX * RADIX) :
    turn op.src op.words op.factorLen ⟨dst, cursor⟩ = .ok (.cell
      ⟨(grown dst cursor.dstPos).set cursor.dstPos (wide % RADIX),
        { cursor with carry := wide / RADIX, dstPos := cursor.dstPos + 1 }⟩) := by
  subst hwide
  simp only [turn, hkind]
  rw [if_neg (by omega), if_neg hcarry, if_neg (by omega), limbAt_of_lt hd]
  simp only [bind, Except.bind, fitsU64, if_pos hfits]

theorem turn_drain {dst : List ℕ} {cursor : LimbCursor} (hkind : cursor.kind = .addMultiplyDrain)
    (h : op.Valid ⟨dst, cursor⟩) :
    ∃ t, turn op.src op.words op.factorLen ⟨dst, cursor⟩ = .ok t ∧
      t.Descends op.Valid op.Done op.measure ⟨dst, cursor⟩ := by
  have hbelow := dstPos_lt_cap hkind h
  obtain ⟨hversion, hcap, hfill, hlimbs, hlength, hcarry, hsrc, hfactor, hplaced, hpending⟩ := h
  simp only [Placed, pending, hkind] at hplaced hpending hsrc hfactor hcarry hcap hlimbs hlength
  obtain ⟨hrow, hdst⟩ := hplaced
  have hfits := op.fits
  have hpos := op.factorLen_pos
  by_cases hzero : cursor.carry = 0
  · rw [hzero, zero_mul, add_zero] at hpending
    by_cases hlast : op.src.length ≤ cursor.srcPos + 1
    · refine ⟨.complete ⟨dst, { cursor with
          srcPos := cursor.srcPos + 1, factorPos := 0, carry := 0 }⟩, ?_, ?_⟩
      · simp only [turn, hkind]
        rw [if_neg (by omega), if_pos hzero, if_pos hlast]
      · rw [rowsAfter_last hlast, add_zero] at hpending
        exact ⟨hlimbs, hlength, by simp [addMultiplyCommitted, hkind, hlast], hpending⟩
    · refine ⟨.next ⟨dst, { cursor with
          kind := .addMultiplyCell, srcPos := cursor.srcPos + 1, factorPos := 0, carry := 0 }⟩,
        ?_, ⟨?_, ?_⟩⟩
      · simp only [turn, hkind]
        rw [if_neg (by omega), if_pos hzero, if_neg hlast]
      · constructor <;> try assumption
        · exact Nat.zero_lt_of_lt one_lt_radix
        · exact Nat.lt_of_not_le hlast
        · exact Nat.zero_le _
        · simp only [Placed]
          omega
        · rw [rowsAfter_eq (by omega)] at hpending
          simp only [pending]
          omega
      · simp only [measure, hkind, rowTurns]
        have hrows : op.src.length - cursor.srcPos - 1 =
          op.src.length - (cursor.srcPos + 1) - 1 + 1 := by omega
        rw [hrows, add_mul, one_mul]
        omega
  · have hroom := hbelow hzero
    obtain ⟨hd, hgrown, hgrownLt, hvalue⟩ := grown_spec hdst hlimbs
    have hlimb := hgrownLt _ (List.getElem_mem hd)
    have hwide : (grown dst cursor.dstPos)[cursor.dstPos] + cursor.carry < RADIX * RADIX := by
      simpa using wide_lt (Nat.zero_lt_of_lt one_lt_radix) (Nat.zero_lt_of_lt one_lt_radix)
        hlimb hcarry
    have hturn := ofDigits_set_mod RADIX
      ((grown dst cursor.dstPos)[cursor.dstPos] + cursor.carry) hd
    refine ⟨_, turn_eq_drain hkind hsrc hzero (by omega) hd rfl hwide, ⟨?_, ?_⟩⟩
    · constructor <;> try assumption
      · exact set_lt hgrownLt _ _
      · rw [List.length_set, hgrown]
        omega
      · exact carry_lt_of_wide hwide
      · simp only [Placed, hkind, List.length_set]
        omega
      · simp only [pending, hkind]
        rw [hvalue, add_mul] at hturn
        omega
    · simp only [measure, hkind, rowTurns]
      omega

/-- A turn keeps the total, never leaves the vectors, is never refused, and comes closer to the
end. -/
theorem turn_descends (s : KernelState) (h : op.Valid s) :
    ∃ t, turn op.src op.words op.factorLen s = .ok t ∧
      t.Descends op.Valid op.Done op.measure s := by
  obtain ⟨dst, cursor⟩ := s
  cases hkind : cursor.kind with
  | zeroFill => exact turn_zeroFill hkind h
  | addMultiplyCell => exact turn_cell hkind h
  | addMultiplyDrain => exact turn_drain hkind h

theorem measure_lt_turnBound (op : Operation) (s : KernelState) :
    op.measure s < turnBound op.src op.factorLen s.cursor := by
  have hrows : op.src.length - s.cursor.srcPos - 1 ≤ op.src.length := by omega
  have hmul := Nat.mul_le_mul_right (op.rowTurns s.cursor) hrows
  have hbound : turnBound op.src op.factorLen s.cursor = s.cursor.fillTo +
      (op.src.length * op.rowTurns s.cursor + op.rowTurns s.cursor) + 3 := by
    rw [turnBound, rowTurns]
    ring
  rw [hbound]
  simp only [measure]
  split <;> simp only [rowTurns] at hmul ⊢ <;> omega

theorem stepAddMultiply_eq {s : KernelState} (h : op.Valid s) (budget : ℕ) :
    stepAddMultiply op.src op.words op.factorLen s budget =
      turns (turn op.src op.words op.factorLen) .endless budget
        (turnBound op.src op.factorLen s.cursor) 0 s := by
  have hdstPos : s.cursor.dstPos ≤ op.cap := by
    have hlength := h.length_le
    have hplaced := h.placed
    simp only [Placed] at hplaced
    split at hplaced <;> omega
  have hversion := h.version
  have hsrc := h.srcPos_lt
  have hfactor := h.factorPos_le
  have hcap := h.cap_le
  have hfill := h.fillTo_le
  have hpos := op.factorLen_pos
  rw [stepAddMultiply, if_neg (by omega), if_neg]
  rintro (hnil | hzero)
  · exact op.src_ne_nil hnil
  · omega

/-- A call with a positive budget brings a valid state closer to its end. -/
theorem stepAddMultiply_progresses {s final : KernelState} {n budget : ℕ} (hs : op.Valid s)
    (hfinishes : Finishes (turn op.src op.words op.factorLen) final n s)
    (hbudget : 0 < budget) :
    ∃ result, stepAddMultiply op.src op.words op.factorLen s budget = .ok result ∧
      Progresses (turn op.src op.words op.factorLen) op.Valid final n result := by
  have hbound := measure_lt_turnBound op s
  have hmeasure := hfinishes.le_measure turn_descends hs
  obtain ⟨result, hresult, _, hless⟩ := @turns_progresses _ _ _ Fault.endless _ _ _
    turn_descends _ _ _ hfinishes budget (turnBound op.src op.factorLen s.cursor) 0
      (by omega) hs
  exact ⟨result, by rw [stepAddMultiply_eq hs, hresult], hless hbudget⟩

end Operation

end FrankenSim.Cbc
