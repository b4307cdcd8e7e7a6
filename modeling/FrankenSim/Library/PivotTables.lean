import FrankenSim.Library.LineOperations
import Mathlib.Data.Int.GCD
import Mathlib.Tactic.Linarith

/-!
# Tables reduced up to a pivot

Up to the pivot the table is diagonal, its entries are positive, and each divides every
later entry. Line operations from the pivot on keep this. A step of the Euclidean
reduction lowers the weight: the pivot, and under it the number of entries not cleared.
-/
namespace FrankenSim.Library

/-- The diagonal up to a pivot is finished. -/
structure Reduced (p : ℕ) (D : ℕ → ℕ → ℤ) : Prop where
  zero : ∀ r c, r ≠ c → (r < p ∨ c < p) → D r c = 0
  pos : ∀ i < p, 0 < D i i
  dvd : ∀ i < p, ∀ r c, i ≤ r → i ≤ c → D i i ∣ D r c

theorem Reduced.transpose {p : ℕ} {D : ℕ → ℕ → ℤ} (h : Reduced p D) : Reduced p (flip D) where
  zero r c hne hlt := h.zero c r hne.symm hlt.symm
  pos := h.pos
  dvd i hi r c hr hc := h.dvd i hi c r hc hr

theorem reduced_zero (D : ℕ → ℕ → ℤ) : Reduced 0 D where
  zero r c _ hlt := absurd hlt (by omega)
  pos i hi := absurd hi (Nat.not_lt_zero i)
  dvd i hi := absurd hi (Nat.not_lt_zero i)

/-- The next pivot divides what is left. -/
theorem Reduced.advance {p : ℕ} {D : ℕ → ℕ → ℤ} (h : Reduced p D) (hpos : 0 < D p p)
    (hbelow : ∀ r, p < r → D r p = 0) (hright : ∀ c, p < c → D p c = 0)
    (hdvd : ∀ r c, p < r → p < c → D p p ∣ D r c) : Reduced (p + 1) D where
  zero := by
    intro r c hne hlt
    by_cases hp : r < p ∨ c < p
    · exact h.zero r c hne hp
    · rcases Nat.lt_trichotomy r p with hr | rfl | hr
      · exact absurd (Or.inl hr) hp
      · exact hright c (by omega)
      · obtain rfl : c = p := by omega
        exact hbelow r hr
  pos := by
    intro i hi
    rcases Nat.lt_succ_iff_lt_or_eq.1 hi with hi | rfl
    · exact h.pos i hi
    · exact hpos
  dvd := by
    intro i hi r c hr hc
    rcases Nat.lt_succ_iff_lt_or_eq.1 hi with hi | rfl
    · exact h.dvd i hi r c hr hc
    · rcases Nat.eq_or_lt_of_le hr with rfl | hr
      · rcases Nat.eq_or_lt_of_le hc with rfl | hc
        · exact dvd_rfl
        · rw [hright c hc]
          exact dvd_zero _
      · rcases Nat.eq_or_lt_of_le hc with rfl | hc
        · rw [hbelow r hr]
          exact dvd_zero _
        · exact hdvd r c hr hc

namespace LineOperation

/-- The operation names lines from the pivot on. -/
def From (p : ℕ) : LineOperation → Prop
  | swap first second => p ≤ first ∧ p ≤ second
  | subtract target source _ => p ≤ target ∧ p ≤ source
  | negate line => p ≤ line

theorem act_of_lt {p : ℕ} {op : LineOperation} (h : op.From p) (D : ℕ → ℕ → ℤ) {r : ℕ}
    (hr : r < p) (c : ℕ) : op.act D r c = D r c := by
  cases op with
  | swap first second =>
    obtain ⟨hf, hs⟩ := h
    simp only [act]
    rw [if_neg (by omega), if_neg (by omega)]
  | subtract target source multiplier =>
    obtain ⟨ht, hs⟩ := h
    simp only [act]
    rw [if_neg (by omega)]
  | negate line =>
    simp only [From] at h
    simp only [act]
    rw [if_neg (by omega)]

/-- A divisor of a column from the pivot on divides the changed column there. -/
theorem dvd_act {p : ℕ} {op : LineOperation} (h : op.From p) {D : ℕ → ℕ → ℤ} {d : ℤ} {c : ℕ}
    (hd : ∀ r, p ≤ r → d ∣ D r c) {r : ℕ} (hr : p ≤ r) : d ∣ op.act D r c := by
  cases op with
  | swap first second =>
    simp only [act]
    split_ifs
    · exact hd _ h.2
    · exact hd _ h.1
    · exact hd r hr
  | subtract target source multiplier =>
    simp only [act]
    split_ifs
    · exact dvd_sub (hd _ h.1) (dvd_mul_of_dvd_right (hd _ h.2) _)
    · exact hd r hr
  | negate line =>
    simp only [act]
    split_ifs
    · exact dvd_neg.2 (hd _ h)
    · exact hd r hr

end LineOperation

/-- Row operations from the pivot on keep the finished part. -/
theorem Reduced.act {p : ℕ} {D : ℕ → ℕ → ℤ} (h : Reduced p D) {op : LineOperation}
    (hop : op.From p) : Reduced p (op.act D) where
  zero := by
    intro r c hne hlt
    by_cases hr : r < p
    · rw [LineOperation.act_of_lt hop D hr]
      exact h.zero r c hne hlt
    · have hc : c < p := by omega
      rw [← zero_dvd_iff]
      apply LineOperation.dvd_act hop _ (by omega)
      intro r' hr'
      rw [h.zero r' c (by omega) (Or.inr hc)]
  pos := by
    intro i hi
    rw [LineOperation.act_of_lt hop D hi]
    exact h.pos i hi
  dvd := by
    intro i hi r c hr hc
    rw [LineOperation.act_of_lt hop D hi]
    by_cases hrp : r < p
    · rw [LineOperation.act_of_lt hop D hrp]
      exact h.dvd i hi r c hr hc
    · apply LineOperation.dvd_act hop _ (by omega)
      intro r' hr'
      exact h.dvd i hi r' c (by omega) hc

/-- Column operations from the pivot on keep the finished part. -/
theorem Reduced.coact {p : ℕ} {D : ℕ → ℕ → ℤ} (h : Reduced p D) {op : LineOperation}
    (hop : op.From p) : Reduced p (flip (op.act (flip D))) :=
  (h.transpose.act hop).transpose

/-- The entries below the pivot that are not cleared. -/
def uncleared (rows p : ℕ) (D : ℕ → ℕ → ℤ) : Finset ℕ :=
  (Finset.range rows).filter fun r => p < r ∧ D r p ≠ 0

/-- The pivot, and under it the number of entries below and to the right not cleared. -/
def weight (rows cols p : ℕ) (D : ℕ → ℕ → ℤ) : ℕ :=
  (D p p).toNat * (rows + cols) +
    ((uncleared rows p D).card + (uncleared cols p (flip D)).card)

theorem weight_flip (rows cols p : ℕ) (D : ℕ → ℕ → ℤ) :
    weight cols rows p (flip D) = weight rows cols p D := by
  unfold weight
  rw [add_comm cols rows, add_comm (uncleared cols p (flip D)).card]
  rfl

theorem card_uncleared_lt {rows p : ℕ} (D : ℕ → ℕ → ℤ) (hp : p < rows) :
    (uncleared rows p D).card < rows := by
  have hsub : uncleared rows p D ⊆ (Finset.range rows).erase p := by
    intro r hr
    obtain ⟨hrange, hlt, _⟩ := Finset.mem_filter.1 hr
    exact Finset.mem_erase.2 ⟨by omega, hrange⟩
  have hcard := Finset.card_le_card hsub
  rw [Finset.card_erase_of_mem (Finset.mem_range.2 hp), Finset.card_range] at hcard
  omega

/-- A smaller pivot outweighs every uncleared entry. -/
theorem weight_lt_of_pivot {rows cols p : ℕ} {D D' : ℕ → ℕ → ℤ} (hrows : p < rows)
    (hcols : p < cols) (hlt : D' p p < D p p) (hnonneg : 0 ≤ D' p p) :
    weight rows cols p D' < weight rows cols p D := by
  have hbelow := card_uncleared_lt D' hrows
  have hright := card_uncleared_lt (flip D') hcols
  have hpivot : (D' p p).toNat + 1 ≤ (D p p).toNat := by omega
  have hmul := Nat.mul_le_mul_right (rows + cols) hpivot
  rw [Nat.succ_mul] at hmul
  unfold weight
  omega

/-- Clearing one entry below the pivot lowers the weight. -/
theorem weight_lt_of_cleared {rows cols p row : ℕ} {D D' : ℕ → ℕ → ℤ} (hrow : p < row)
    (hlt : row < rows) (hne : D row p ≠ 0) (hcleared : D' row p = 0)
    (hrowp : ∀ c, D' p c = D p c) (hother : ∀ r, r ≠ row → D' r p = D r p) :
    weight rows cols p D' < weight rows cols p D := by
  have hssub : uncleared rows p D' ⊂ uncleared rows p D := by
    refine ⟨fun r hr => ?_, fun hsub => ?_⟩
    · obtain ⟨hrange, hp, hr'⟩ := Finset.mem_filter.1 hr
      have hrne : r ≠ row := fun heq => hr' (heq ▸ hcleared)
      rw [hother r hrne] at hr'
      exact Finset.mem_filter.2 ⟨hrange, hp, hr'⟩
    · have hmem := hsub (Finset.mem_filter.2 ⟨Finset.mem_range.2 hlt, hrow, hne⟩)
      exact (Finset.mem_filter.1 hmem).2.2 hcleared
  have hcard := Finset.card_lt_card hssub
  have hright : uncleared cols p (flip D') = uncleared cols p (flip D) := by
    unfold uncleared
    apply Finset.filter_congr
    intro c _
    simp only [flip, hrowp]
  unfold weight
  rw [hright, hrowp p]
  omega

/-- A line below the pivot after the Euclidean division by the pivot line. -/
def divided (p row : ℕ) (D : ℕ → ℕ → ℤ) : ℕ → ℕ → ℤ :=
  (LineOperation.subtract row p (D row p / D p p)).act D

theorem divided_self {p row : ℕ} (D : ℕ → ℕ → ℤ) : divided p row D row p = D row p % D p p := by
  simp only [divided, LineOperation.act, if_true]
  rw [Int.emod_def, mul_comm]

theorem divided_of_ne {p row : ℕ} (D : ℕ → ℕ → ℤ) {r : ℕ} (h : r ≠ row) (c : ℕ) :
    divided p row D r c = D r c := by
  simp only [divided, LineOperation.act]
  rw [if_neg h]

/-- A division without remainder clears the entry. -/
theorem weight_divided_lt {rows cols p row : ℕ} {D : ℕ → ℕ → ℤ} (hrow : p < row)
    (hlt : row < rows) (hne : D row p ≠ 0) (hzero : D row p % D p p = 0) :
    weight rows cols p (divided p row D) < weight rows cols p D := by
  apply weight_lt_of_cleared hrow hlt hne
  · rw [divided_self, hzero]
  · intro c
    exact divided_of_ne D (by omega) c
  · intro r hr
    exact divided_of_ne D hr p

/-- The remainder becomes the pivot when the lines are exchanged. -/
theorem exchanged_pivot {p row : ℕ} (D : ℕ → ℕ → ℤ) :
    (LineOperation.swap p row).act (divided p row D) p p = D row p % D p p := by
  simp only [LineOperation.act, if_true]
  exact divided_self D

theorem weight_exchanged_lt {rows cols p row : ℕ} {D : ℕ → ℕ → ℤ} (hrows : p < rows)
    (hcols : p < cols) (hpos : 0 < D p p) :
    weight rows cols p ((LineOperation.swap p row).act (divided p row D)) <
      weight rows cols p D := by
  apply weight_lt_of_pivot hrows hcols
  · rw [exchanged_pivot]
    exact Int.emod_lt_of_pos _ hpos
  · rw [exchanged_pivot]
    exact Int.emod_nonneg _ hpos.ne'

/-- The row of the pivot after a row is added to it. -/
def repaired (p row : ℕ) (D : ℕ → ℕ → ℤ) : ℕ → ℕ → ℤ :=
  (LineOperation.subtract p row (-1)).act D

theorem repaired_pivotRow {p row : ℕ} (D : ℕ → ℕ → ℤ) (c : ℕ) :
    repaired p row D p c = D p c + D row c := by
  simp only [repaired, LineOperation.act, if_true]
  ring

end FrankenSim.Library
