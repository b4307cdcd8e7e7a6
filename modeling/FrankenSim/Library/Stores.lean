import Mathlib.Data.List.Perm.Basic
import Mathlib.Data.List.Range

/-!
# Stores into a buffer

A computation that only writes its output buffer is the list of its stores, in
the order in which they happen. When the stores cover every cell once, what they
leave does not depend on what the buffer held, nor on their order.
-/
namespace FrankenSim.Library

variable {V : Type}

/-- Values copied to consecutive cells, one store after the other. -/
abbrev Stores (V : Type) := List (ℕ × List V)

/-- Copy the values to the cells from `lo` on, all of which must be there. -/
def storeAt (lo : ℕ) (values cells : List V) : Option (List V) :=
  if lo + values.length ≤ cells.length then
    some (cells.take lo ++ values ++ cells.drop (lo + values.length))
  else none

def perform (stores : Stores V) (cells : List V) : Option (List V) :=
  stores.foldlM (fun cells s => storeAt s.1 s.2 cells) cells

/-- The cells written, as often as they are. -/
def written (stores : Stores V) : List ℕ :=
  stores.flatMap fun s => (List.range s.2.length).map (s.1 + ·)

/-- The computation runs, writes every cell once and leaves `out`. -/
def Fills (stores : Option (Stores V)) (cells out : List V) : Prop :=
  ∃ ss, stores = some ss ∧ (written ss).Perm (List.range cells.length) ∧
    perform ss cells = some out

theorem getElem?_storeAt {lo : ℕ} {values cells cells' : List V}
    (h : storeAt lo values cells = some cells') (i : ℕ) :
    cells'[i]? = if i ∈ (List.range values.length).map (lo + ·) then values[i - lo]?
      else cells[i]? := by
  unfold storeAt at h
  simp only [Option.ite_none_right_eq_some, Option.some.injEq] at h
  obtain ⟨hle, rfl⟩ := h
  have hmem : i ∈ (List.range values.length).map (lo + ·) ↔ lo ≤ i ∧ i < lo + values.length := by
    simp only [List.mem_map, List.mem_range]
    constructor
    · rintro ⟨k, hk, rfl⟩
      omega
    · rintro ⟨hlo, hlt⟩
      exact ⟨i - lo, by omega, by omega⟩
  have htake : (cells.take lo).length = lo := by rw [List.length_take]; omega
  by_cases hlo : i < lo
  · rw [if_neg (by rw [hmem]; omega), List.append_assoc,
      List.getElem?_append_left (by rw [htake]; exact hlo), List.getElem?_take_of_lt hlo]
  · by_cases hlt : i < lo + values.length
    · rw [if_pos (by rw [hmem]; omega), List.append_assoc,
        List.getElem?_append_right (by rw [htake]; omega), htake,
        List.getElem?_append_left (by omega)]
    · rw [if_neg (by rw [hmem]; omega),
        List.getElem?_append_right (by rw [List.length_append, htake]; omega),
        List.length_append, htake, List.getElem?_drop]
      congr 1
      omega

theorem length_storeAt {lo : ℕ} {values cells cells' : List V}
    (h : storeAt lo values cells = some cells') : cells'.length = cells.length := by
  unfold storeAt at h
  simp only [Option.ite_none_right_eq_some, Option.some.injEq] at h
  obtain ⟨hle, rfl⟩ := h
  simp only [List.length_append, List.length_take, List.length_drop]
  omega

/-- Stores of the right values leave them in the cells they write. -/
theorem perform_eq {stores : Stores V} {cells out : List V}
    (hin : ∀ s ∈ stores, s.1 + s.2.length ≤ cells.length)
    (hval : ∀ s ∈ stores, ∀ i < s.2.length, out[s.1 + i]? = s.2[i]?) :
    ∃ cells', perform stores cells = some cells' ∧ cells'.length = cells.length ∧
      ∀ i, cells'[i]? = if i ∈ written stores then out[i]? else cells[i]? := by
  induction stores generalizing cells with
  | nil => exact ⟨cells, rfl, rfl, fun i => by simp [written]⟩
  | cons s stores ih =>
    have hs : storeAt s.1 s.2 cells =
        some (cells.take s.1 ++ s.2 ++ cells.drop (s.1 + s.2.length)) :=
      if_pos (hin s List.mem_cons_self)
    have hlength := length_storeAt hs
    obtain ⟨cells', hperform, hlength', hcells⟩ := ih
      (fun s' hs' => by rw [hlength]; exact hin s' (List.mem_cons_of_mem _ hs'))
      (fun s' hs' => hval s' (List.mem_cons_of_mem _ hs'))
    refine ⟨cells', ?_, hlength'.trans hlength, ?_⟩
    · rw [perform, List.foldlM_cons, hs]
      exact hperform
    · intro i
      have hwritten : i ∈ written (s :: stores) ↔
          i ∈ (List.range s.2.length).map (s.1 + ·) ∨ i ∈ written stores := by
        rw [written, List.flatMap_cons, List.mem_append]
        rfl
      rw [hcells, getElem?_storeAt hs]
      by_cases hlater : i ∈ written stores
      · rw [if_pos hlater, if_pos (hwritten.mpr (.inr hlater))]
      · rw [if_neg hlater]
        split
        case isTrue hmem =>
          rw [if_pos (hwritten.mpr (.inl hmem))]
          obtain ⟨k, hk, rfl⟩ := List.mem_map.mp hmem
          rw [hval s List.mem_cons_self k (List.mem_range.mp hk), Nat.add_sub_cancel_left]
        case isFalse hmem => rw [if_neg (by rw [hwritten]; exact not_or.mpr ⟨hmem, hlater⟩)]

theorem fills_of_perm {stores : Stores V} {cells out : List V} (hout : out.length = cells.length)
    (hin : ∀ s ∈ stores, s.1 + s.2.length ≤ cells.length)
    (hval : ∀ s ∈ stores, ∀ i < s.2.length, out[s.1 + i]? = s.2[i]?)
    (hperm : (written stores).Perm (List.range cells.length)) :
    Fills (some stores) cells out := by
  obtain ⟨cells', hperform, hlength, hcells⟩ := perform_eq hin hval
  refine ⟨stores, rfl, hperm, ?_⟩
  rw [hperform, Option.some.injEq]
  apply List.ext_getElem?
  intro i
  rw [hcells]
  by_cases hi : i < cells.length
  · rw [if_pos (hperm.mem_iff.mpr (List.mem_range.mpr hi))]
  · rw [if_neg (by rw [hperm.mem_iff, List.mem_range]; exact hi), List.getElem?_eq_none (by omega),
      List.getElem?_eq_none (by omega)]

/-- One store for each cell, in any order. -/
theorem fills_cells {is : List ℕ} {n : ℕ} {f : ℕ → V} {cells : List V} (hn : cells.length = n)
    (his : is.Perm (List.range n)) :
    Fills (some (is.map fun i => (i, [f i]))) cells ((List.range n).map f) := by
  have hwritten : written (is.map fun i => (i, [f i])) = is := by
    rw [written, List.flatMap_map]
    simp
  have hlt : ∀ i ∈ is, i < n := fun i hi => List.mem_range.mp (his.mem_iff.mp hi)
  apply fills_of_perm
  · rw [List.length_map, List.length_range, hn]
  · intro s hs
    obtain ⟨i, hi, rfl⟩ := List.mem_map.mp hs
    rw [hn]
    exact hlt i hi
  · intro s hs k hk
    obtain ⟨i, hi, rfl⟩ := List.mem_map.mp hs
    obtain rfl := Nat.lt_one_iff.mp hk
    simp [hlt i hi]
  · rw [hwritten, hn]
    exact his

/-- `n` blocks of `k` cells side by side. -/
theorem blocks_cover (n k : ℕ) :
    ((List.range n).flatMap fun r => (List.range k).map (r * k + ·)) = List.range (n * k) := by
  induction n with
  | zero => rw [Nat.zero_mul]; rfl
  | succ n ih =>
    rw [List.range_succ, List.flatMap_append, ih, List.flatMap_singleton, Nat.succ_mul,
      List.range_add]

/-- Strips of width `w`, the last one as wide as what is left. -/
theorem strips_cover (w k m : ℕ) :
    ((List.range m).flatMap fun b => (List.range (min w (k - b * w))).map (b * w + ·)) =
      List.range (min (m * w) k) := by
  induction m with
  | zero => rw [Nat.zero_mul, Nat.zero_min]; rfl
  | succ m ih =>
    rw [List.range_succ, List.flatMap_append, ih, List.flatMap_singleton, Nat.succ_mul]
    obtain hle | hlt := Nat.le_total (m * w) k
    · rw [Nat.min_eq_left hle, ← List.range_add]
      congr 1
      omega
    · rw [Nat.min_eq_right hlt, Nat.sub_eq_zero_of_le hlt, Nat.min_zero, List.range_zero,
        List.map_nil, List.append_nil, Nat.min_eq_right (Nat.le_add_right_of_le hlt)]

/-- The number of strips of width `w` that `k` cells take. -/
def divCeil (k w : ℕ) : ℕ := (k + (w - 1)) / w

theorem le_divCeil_mul {w : ℕ} (hw : 0 < w) (k : ℕ) : k ≤ divCeil k w * w := by
  have hmod := Nat.mod_lt (k + (w - 1)) hw
  have hdiv := Nat.div_add_mod (k + (w - 1)) w
  rw [Nat.mul_comm] at hdiv
  unfold divCeil
  omega

theorem strip_lt {k w b : ℕ} (h : b < divCeil k w) : b * w < k := by
  have hw : 0 < w := by
    by_contra hw
    simp [divCeil, Nat.eq_zero_of_not_pos hw] at h
  have hle : (b + 1) * w ≤ k + (w - 1) := (Nat.le_div_iff_mul_le hw).mp h
  rw [Nat.succ_mul] at hle
  omega

theorem div_lt_divCeil {i k w : ℕ} (hw : 0 < w) (h : i < k) : i / w < divCeil k w :=
  (Nat.div_lt_iff_lt_mul hw).mpr (h.trans_le (le_divCeil_mul hw k))

theorem strips_cover_divCeil {w : ℕ} (hw : 0 < w) (k : ℕ) :
    ((List.range (divCeil k w)).flatMap fun b =>
      (List.range (min w (k - b * w))).map (b * w + ·)) = List.range k := by
  rw [strips_cover, Nat.min_eq_right (le_divCeil_mul hw k)]

theorem divCeil_pos {k w : ℕ} (hk : 0 < k) (hw : 0 < w) : 0 < divCeil k w := by
  have hle := le_divCeil_mul hw k
  by_contra hzero
  rw [Nat.eq_zero_of_not_pos hzero, Nat.zero_mul] at hle
  omega

theorem range'_split {lo mid hi : ℕ} (hlo : lo ≤ mid) (hhi : mid ≤ hi) :
    List.range' lo (mid - lo) ++ List.range' mid (hi - mid) = List.range' lo (hi - lo) := by
  have hmid : List.range' mid (hi - mid) = List.range' (lo + (mid - lo)) (hi - mid) := by
    rw [Nat.add_sub_cancel' hlo]
  rw [hmid, List.range'_append_1]
  congr 1
  omega

/-- The order of two nested loops does not change what they produce. -/
theorem flatMap_comm {α β γ : Type} (l : List α) (m : List β) (f : α → β → List γ) :
    (l.flatMap fun a => m.flatMap fun b => f a b).Perm (m.flatMap fun b => l.flatMap fun a => f a b) := by
  induction l with
  | nil => simp
  | cons a l ih =>
    simp only [List.flatMap_cons]
    exact (ih.append_left _).trans (List.flatMap_append_perm m (f a) _)

end FrankenSim.Library
