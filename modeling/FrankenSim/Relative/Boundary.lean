import FrankenSim.Library.Chains
import FrankenSim.Relative.Complex

/-!
# Admission of a complex and its boundary

A list of incidences is admitted exactly when it is in range, of consecutive degrees,
free of duplicates and within the budgets, and its boundary squares to zero.
-/
namespace FrankenSim.Relative

open Library

/-- The linear boundary of an incidence list. -/
noncomputable def boundary (incidences : List BoundaryIncidence) :
    (CellRef →₀ ℤ) →ₗ[ℤ] CellRef →₀ ℤ :=
  Chains.boundary BoundaryIncidence.upper BoundaryIncidence.lower (fun e => e.sign.asI128) incidences

/-- The boundary of one cell. -/
noncomputable def cellBoundary (incidences : List BoundaryIncidence) (cell : CellRef) :
    CellRef →₀ ℤ :=
  Chains.cellBoundary BoundaryIncidence.upper BoundaryIncidence.lower (fun e => e.sign.asI128)
    incidences cell

def BoundarySquaresToZero (incidences : List BoundaryIncidence) : Prop :=
  (boundary incidences).comp (boundary incidences) = 0

def InRange (counts : List ℕ) (cell : CellRef) : Prop := ∃ count, counts[cell.degree]? = some count ∧
  cell.ordinal < count

/-- No two incidences are between the same cells. -/
def DuplicateFree (incidences : List BoundaryIncidence) : Prop :=
  incidences.Pairwise fun a b => ¬ (a.upper = b.upper ∧ a.lower = b.lower)

/-- An incidence list that is in range, of consecutive degrees, free of duplicates and
within the budgets. -/
structure Admissible (dimension : ℕ) (counts : List ℕ) (incidences : List BoundaryIncidence) :
    Prop where
  dimension_le : dimension ≤ maxTerminalRelativeDimension
  arity : counts.length = dimension + 1
  cells_pos : 0 < counts.sum
  cells_le : counts.sum ≤ maxTerminalRelativeCells
  incidences_le : incidences.length ≤ maxTerminalRelativeIncidences
  inRange : ∀ e ∈ incidences, InRange counts e.lower ∧ InRange counts e.upper
  degrees : ∀ e ∈ incidences, e.lower.degree + 1 = e.upper.degree
  duplicateFree : DuplicateFree incidences

variable {dimension : ℕ} {counts : List ℕ} {incidences : List BoundaryIncidence}

theorem checkedTotalCells_eq (counts : List ℕ) :
    checkedTotalCells counts = if counts.sum < 2 ^ 64 then some counts.sum else none := by
  have hfold : ∀ (counts : List ℕ) (sum : ℕ), sum < 2 ^ 64 →
      counts.foldlM (fun sum count => if sum + count < 2 ^ 64 then some (sum + count) else none) sum =
        if sum + counts.sum < 2 ^ 64 then some (sum + counts.sum) else none := by
    intro counts
    induction counts with
    | nil =>
      intro sum hsum
      rw [List.foldlM_nil, List.sum_nil, add_zero, if_pos hsum]
      rfl
    | cons count counts ih =>
      intro sum hsum
      rw [List.foldlM_cons, List.sum_cons, ← add_assoc]
      by_cases hcount : sum + count < 2 ^ 64
      · rw [if_pos hcount]
        exact ih (sum + count) hcount
      · rw [if_neg hcount, if_neg (by omega)]
        rfl
  rw [checkedTotalCells, hfold counts 0 (by norm_num), zero_add]

theorem totalCells_ok {total : ℕ} :
    totalCells counts = .ok total ↔ counts.sum < 2 ^ 64 ∧ counts.sum = total := by
  rw [totalCells, checkedTotalCells_eq]
  split_ifs with h
  · rw [Except.ok.injEq, and_iff_right h]
  · exact ⟨nofun, fun hsum => absurd hsum.1 h⟩

theorem validateCellRef_ok {cell : CellRef} {u : Unit} :
    validateCellRef cell counts = .ok u ↔ InRange counts cell := by
  unfold validateCellRef InRange
  cases counts[cell.degree]? with
  | none => simp
  | some count => simp [refuseWhen_ok]

theorem validateIncidence_ok {e : BoundaryIncidence} {u : Unit} :
    validateIncidence counts e = .ok u ↔
      InRange counts e.lower ∧ InRange counts e.upper ∧ e.lower.degree + 1 = e.upper.degree := by
  simp [validateIncidence, bind_eq_ok_iff, validateCellRef_ok, refuseWhen_ok]

/-- With consecutive degrees the key tells the two cells of an incidence. -/
theorem key_eq_iff {a b : BoundaryIncidence} (ha : a.lower.degree + 1 = a.upper.degree)
    (hb : b.lower.degree + 1 = b.upper.degree) :
    a.key = b.key ↔ a.upper = b.upper ∧ a.lower = b.lower := by
  obtain ⟨⟨ld, lo⟩, ⟨ud, uo⟩, s⟩ := a
  obtain ⟨⟨ld', lo'⟩, ⟨ud', uo'⟩, s'⟩ := b
  simp only [BoundaryIncidence.key, toLex_inj, Prod.mk.injEq, CellRef.mk.injEq] at *
  omega

/-- On a sorted list the neighbours decide about all duplicates. -/
theorem refuseDuplicates_ok (hdegrees : ∀ e ∈ incidences, e.lower.degree + 1 = e.upper.degree)
    (hsorted : incidences.Pairwise fun a b => a.key ≤ b.key) :
    refuseDuplicates incidences = .ok () ↔ DuplicateFree incidences := by
  induction incidences with
  | nil => simp [refuseDuplicates, DuplicateFree]
  | cons first rest ih =>
    cases rest with
    | nil => simp [refuseDuplicates, DuplicateFree]
    | cons second rest =>
      obtain ⟨hhead, htail⟩ := List.pairwise_cons.1 hsorted
      have hrest := ih (fun e he => hdegrees e (List.mem_cons_of_mem _ he)) htail
      have hfirst := hdegrees first List.mem_cons_self
      have hsecond := hdegrees second (List.mem_cons_of_mem _ List.mem_cons_self)
      unfold DuplicateFree at hrest ⊢
      rw [refuseDuplicates, List.pairwise_cons]
      by_cases hsame : first.upper = second.upper ∧ first.lower = second.lower
      · rw [if_pos hsame]
        constructor
        · intro h
          cases h
        · rintro ⟨hall, -⟩
          exact absurd hsame (hall second List.mem_cons_self)
      · rw [if_neg hsame, hrest, and_iff_right]
        -- the first key lies strictly below the second, and below all later ones
        intro e he hduplicate
        have hdegree := hdegrees e (List.mem_cons_of_mem _ he)
        have hkey := (key_eq_iff hfirst hdegree).2 hduplicate
        have hle : second.key ≤ e.key := by
          rcases List.mem_cons.1 he with rfl | hmem
          · exact le_rfl
          · exact (List.pairwise_cons.1 htail).1 e hmem
        have hbelow := hhead second List.mem_cons_self
        exact hsame ((key_eq_iff hfirst hsecond).1 (le_antisymm hbelow (hkey ▸ hle)))

/-- The terms with one target, from one face of the source. -/
theorem sum_contributions_face (incidences : List BoundaryIncidence) (sign : ℤ)
    (middle target : CellRef) :
    (((((incidences.filter fun e => e.upper = middle).map fun e =>
        (e.lower, sign * e.sign.asI128)).filter fun entry => entry.1 = target).map
        Prod.snd).sum : ℤ) = sign * cellBoundary incidences middle target := by
  rw [cellBoundary, Chains.cellBoundary_apply, List.filter_map, List.map_map, ← List.sum_map_mul_left]
  rfl

/-- The terms with one target add up to a coefficient of the twofold boundary. -/
theorem getD_totals_contributions (complex : FiniteCellComplex) (source target : CellRef) :
    ((SortedMap.totals (complex.contributions source)).get? target).getD 0 =
      boundary complex.incidences (cellBoundary complex.incidences source) target := by
  have hfaces : ∀ faces : List BoundaryIncidence,
      (((faces.flatMap fun upperToMiddle =>
        (complex.incidences.filter fun e => e.upper = upperToMiddle.lower).map fun middleToLower =>
          (middleToLower.lower, upperToMiddle.sign.asI128 * middleToLower.sign.asI128)).filter
        fun entry => entry.1 = target).map Prod.snd).sum =
      ((faces.map fun e => e.sign.asI128 • cellBoundary complex.incidences e.lower).sum :
        CellRef →₀ ℤ) target := by
    intro faces
    induction faces with
    | nil => rfl
    | cons face faces ih =>
      rw [List.flatMap_cons, List.filter_append, List.map_append, List.sum_append, ih,
        sum_contributions_face, List.map_cons, List.sum_cons, Finsupp.add_apply,
        Finsupp.smul_apply, smul_eq_mul]
  rw [SortedMap.getD_totals, boundary, cellBoundary, Chains.boundary_cellBoundary]
  simp only [FiniteCellComplex.contributions, FiniteCellComplex.byUpper, SortedMap.getD_groupBy]
  convert hfaces _
  all_goals rfl

/-- A cell passes exactly when its twofold boundary is zero. -/
theorem verifyCell_ok (complex : FiniteCellComplex) (source : CellRef) :
    complex.verifyCell source = .ok () ↔
      boundary complex.incidences (cellBoundary complex.incidences source) = 0 := by
  have hnone := SortedMap.find?_ne_eq_none (SortedMap.totals (complex.contributions source)) 0
  simp only [getD_totals_contributions] at hnone
  have hext : (∀ target, boundary complex.incidences (cellBoundary complex.incidences source) target =
      0) ↔ boundary complex.incidences (cellBoundary complex.incidences source) = 0 :=
    ⟨fun h => Finsupp.ext h, fun h target => by rw [h, Finsupp.zero_apply]⟩
  apply Iff.trans _ (hnone.trans hext)
  unfold FiniteCellComplex.verifyCell
  cases (SortedMap.totals (complex.contributions source)).entries.find? fun entry => entry.2 ≠ 0 with
  | none => simp
  | some entry => simp

/-- Without two incidences in a row the twofold boundary of a cell is zero. -/
theorem boundary_eq_zero_of_not_upper (complex : FiniteCellComplex) (source : CellRef)
    (hnone : ∀ e ∈ complex.incidences, e.upper = source →
      ∀ f ∈ complex.incidences, f.upper ≠ e.lower) :
    boundary complex.incidences (cellBoundary complex.incidences source) = 0 := by
  rw [boundary, cellBoundary, Chains.boundary_cellBoundary]
  apply List.sum_eq_zero
  intro chain hchain
  obtain ⟨e, he, rfl⟩ := List.mem_map.1 hchain
  obtain ⟨hmem, hupper⟩ := List.mem_filter.1 he
  have hempty : complex.incidences.filter (fun f => f.upper = e.lower) = [] := by
    apply List.filter_eq_nil_iff.2
    intro f hf
    simpa using hnone e hmem (by simpa using hupper) f hf
  rw [Chains.cellBoundary, hempty, List.map_nil, List.sum_nil, smul_zero]

/-- The verification visits every cell that could have a twofold boundary. -/
theorem verifyBoundarySquared_ok {complex : FiniteCellComplex}
    (hinRange : ∀ e ∈ complex.incidences, InRange complex.cellCounts e.lower ∧
      InRange complex.cellCounts e.upper)
    (hdegrees : ∀ e ∈ complex.incidences, e.lower.degree + 1 = e.upper.degree)
    (harity : complex.cellCounts.length = complex.dimension + 1) :
    complex.verifyBoundarySquared = .ok () ↔ BoundarySquaresToZero complex.incidences := by
  have hverified : complex.verifyBoundarySquared = .ok () ↔
      ∀ degree ∈ List.range' 2 (complex.dimension - 1),
        ∀ ordinal ∈ List.range (complex.cellCounts.getD degree 0),
          complex.verifyCell ⟨degree, ordinal⟩ = .ok () := by
    unfold FiniteCellComplex.verifyBoundarySquared
    rw [forM_ok]
    simp only [forM_ok]
  rw [hverified, BoundarySquaresToZero]
  unfold boundary
  rw [Chains.comp_self_eq_zero_iff]
  constructor
  · intro h source
    by_cases hupper : ∃ e ∈ complex.incidences, e.upper = source ∧
        ∃ f ∈ complex.incidences, f.upper = e.lower
    · obtain ⟨e, he, rfl, f, hf, hmiddle⟩ := hupper
      obtain ⟨count, hcount, hordinal⟩ := (hinRange e he).2
      have hdegree := hdegrees e he
      have hbelow := hdegrees f hf
      have hlt := (List.getElem?_eq_some_iff.1 hcount).1
      rw [hmiddle] at hbelow
      apply (verifyCell_ok complex e.upper).1
      apply h e.upper.degree _ e.upper.ordinal
      · rw [List.getD_eq_getElem?_getD, hcount, Option.getD_some]
        exact List.mem_range.2 hordinal
      · apply List.mem_range'_1.2
        omega
    · apply boundary_eq_zero_of_not_upper complex source
      intro e he hsource f hf hmiddle
      exact hupper ⟨e, he, hsource, f, hf, hmiddle⟩
  · intro h degree _ ordinal _
    exact (verifyCell_ok complex _).2 (h _)

/-- A complex is admitted exactly when its incidences are admissible and their boundary
squares to zero, and it keeps them sorted. -/
theorem tryNew_eq_ok {complex : FiniteCellComplex} :
    FiniteCellComplex.tryNew dimension counts incidences = .ok complex ↔
      Admissible dimension counts incidences ∧ BoundarySquaresToZero incidences ∧
        complex = ⟨dimension, counts, sortByKey BoundaryIncidence.key incidences⟩ := by
  have hsort := sortByKey_perm BoundaryIncidence.key incidences
  have hsquares : BoundarySquaresToZero (sortByKey BoundaryIncidence.key incidences) ↔
      BoundarySquaresToZero incidences := by
    unfold BoundarySquaresToZero boundary
    rw [Chains.boundary_perm hsort]
  have hduplicates : DuplicateFree (sortByKey BoundaryIncidence.key incidences) ↔
      DuplicateFree incidences :=
    hsort.pairwise_iff fun h hback => h ⟨hback.1.symm, hback.2.symm⟩
  have hmem : ∀ e ∈ sortByKey BoundaryIncidence.key incidences, e ∈ incidences :=
    fun e he => mem_sortByKey.1 he
  have hvalid : (∀ e ∈ incidences, validateIncidence counts e = .ok ()) ↔
      (∀ e ∈ incidences, InRange counts e.lower ∧ InRange counts e.upper) ∧
        ∀ e ∈ incidences, e.lower.degree + 1 = e.upper.degree := by
    simp only [validateIncidence_ok, ← and_assoc, forall_and]
  unfold FiniteCellComplex.tryNew
  simp only [bind_eq_ok_iff, refuseWhen_ok, totalCells_ok, not_lt, not_not, not_or, gt_iff_lt]
  constructor
  · rintro ⟨_, hdimension, _, harity, _, ⟨hword, rfl⟩, _, ⟨hpos, hle⟩, _, hincidences, _, hforM, _,
      hrefuse, _, hverify, hcomplex⟩
    obtain ⟨hinRange, hdegrees⟩ := hvalid.1 (forM_ok.1 hforM)
    have hsortedRange := fun e he => hinRange e (hmem e he)
    have hsortedDegrees := fun e he => hdegrees e (hmem e he)
    rw [refuseDuplicates_ok hsortedDegrees (sorted_sortByKey _ _), hduplicates] at hrefuse
    rw [verifyBoundarySquared_ok hsortedRange hsortedDegrees harity, hsquares] at hverify
    exact ⟨⟨hdimension, harity, by omega, hle, hincidences, hinRange, hdegrees, hrefuse⟩, hverify,
      (Except.ok.inj hcomplex).symm⟩
  · rintro ⟨h, hsquare, rfl⟩
    have hsortedRange := fun e he => h.inRange e (hmem e he)
    have hsortedDegrees := fun e he => h.degrees e (hmem e he)
    have hword : counts.sum < 2 ^ 64 := lt_of_le_of_lt h.cells_le (by decide)
    refine ⟨(), h.dimension_le, (), h.arity, counts.sum, ⟨hword, rfl⟩, (),
      ⟨h.cells_pos.ne', h.cells_le⟩, (), h.incidences_le, (),
      forM_ok.2 (hvalid.2 ⟨h.inRange, h.degrees⟩), (), ?_, (), ?_, rfl⟩
    · rw [refuseDuplicates_ok hsortedDegrees (sorted_sortByKey _ _), hduplicates]
      exact h.duplicateFree
    · rw [verifyBoundarySquared_ok hsortedRange hsortedDegrees h.arity, hsquares]
      exact hsquare

end FrankenSim.Relative
