import FrankenSim.Sparse.Analysis

/-!
# What the analysis returns

The analysis never fails on a canonical matrix. It refuses what is not square and names
the first stored entry without a mirror image; on a square matrix with a symmetric pattern
it returns an order with its inverse, the supernodes of that order and its fill.
-/
namespace FrankenSim.Sparse

open Library

variable {V : Type} {α β : Type}

theorem findSomeM?_some {f : α → Option (Option β)} {g : α → Option β} {l : List α}
    (h : ∀ a ∈ l, f a = some (g a)) : l.findSomeM? f = some (l.findSome? g) := by
  induction l with
  | nil => rfl
  | cons a l ih =>
    have htail := ih fun a ha => h a (List.mem_cons_of_mem _ ha)
    rw [List.findSomeM?, h a List.mem_cons_self, List.findSome?_cons, Option.bind_eq_bind,
      Option.bind_some]
    cases g a with
    | none => exact htail
    | some b => rfl

/-- The first hit in an ascending list comes before every other one. -/
theorem findSome?_first {g : ℕ → Option β} {l : List ℕ} (hl : l.Pairwise (· < ·)) {b : β}
    (h : l.findSome? g = some b) :
    ∃ a ∈ l, g a = some b ∧ ∀ a' ∈ l, g a' ≠ none → a ≤ a' := by
  induction l with
  | nil => cases h
  | cons a l ih =>
    obtain ⟨hlt, hl⟩ := List.pairwise_cons.mp hl
    rw [List.findSome?_cons] at h
    cases hg : g a with
    | none =>
      rw [hg] at h
      obtain ⟨a', ha', hga', hleast⟩ := ih hl h
      refine ⟨a', List.mem_cons_of_mem _ ha', hga', ?_⟩
      intro a'' ha'' hne
      obtain rfl | ha'' := List.mem_cons.mp ha''
      · exact absurd hg hne
      · exact hleast a'' ha'' hne
    | some b' =>
      rw [hg] at h
      refine ⟨a, List.mem_cons_self, hg.trans h, ?_⟩
      intro a' ha' _
      obtain rfl | ha' := List.mem_cons.mp ha'
      · exact Nat.le_refl _
      · exact Nat.le_of_lt (hlt a' ha')

namespace Csr

variable {A : Csr V} {r c n : ℕ}

def Unmirrored (A : Csr V) (r c : ℕ) : Prop := A.Stored r c ∧ ¬ A.Stored c r

theorem not_symmetric_iff : ¬ A.Symmetric ↔ ∃ r c, A.Unmirrored r c := by
  simp only [Symmetric, Unmirrored]
  push Not
  rfl

theorem Canonical.findUnmirrored_eq (hA : A.Canonical) (hsq : A.nrows = A.ncols)
    (hr : r < A.nrows) :
    ∃ o, A.findUnmirrored r = some o ∧ (o = none ↔ ∀ c, ¬ A.Unmirrored r c) ∧
      ∀ r' c, o = some (r', c) → r' = r ∧ A.Unmirrored r c ∧
        ∀ c', A.Unmirrored r c' → c ≤ c' := by
  classical
  obtain ⟨cols, vals, hrow, hsorted, hlt⟩ := hA.exists_row hr
  let g : ℕ → Option (ℕ × ℕ) := fun c => if A.Stored c r then none else some (r, c)
  have hg : ∀ c, g c ≠ none ↔ ¬ A.Stored c r := by
    intro c
    by_cases hc : A.Stored c r
    · simp [g, hc]
    · simp [g, hc]
  have hloop : ∀ c ∈ cols, (do
      let mirrored ← A.contains c r
      some (if mirrored then none else some (r, c))) = some (g c) := by
    intro c hc
    obtain ⟨b, hb, hiff⟩ := hA.contains_eq (c := r) (hsq ▸ hlt c hc)
    rw [hb, Option.bind_eq_bind, Option.bind_some]
    by_cases hstored : A.Stored c r
    · rw [hiff.mpr hstored]
      simp [g, hstored]
    · have hfalse : b = false := by
        rw [← Bool.not_eq_true]
        exact fun htrue => hstored (hiff.mp htrue)
      rw [hfalse]
      simp [g, hstored]
  refine ⟨cols.findSome? g, ?_, ?_, ?_⟩
  · rw [findUnmirrored, hrow, Option.bind_eq_bind, Option.bind_some]
    exact findSomeM?_some hloop
  · rw [List.findSome?_eq_none_iff]
    constructor
    · intro hnone c hc
      exact (hg c).mpr hc.2 (hnone c ((stored_iff hrow).mp hc.1))
    · intro hall c hc
      by_contra hne
      exact hall c ⟨(stored_iff hrow).mpr hc, (hg c).mp hne⟩
  · intro r' c hfound
    obtain ⟨a, ha, hga, hleast⟩ := findSome?_first hsorted hfound
    have hstored : ¬ A.Stored a r := by
      rw [← hg, hga]
      exact Option.some_ne_none _
    have heq : g a = some (r, a) := if_neg hstored
    rw [hga, Option.some.injEq, Prod.mk.injEq] at heq
    obtain ⟨rfl, rfl⟩ := heq
    refine ⟨rfl, ⟨(stored_iff hrow).mpr ha, hstored⟩, ?_⟩
    intro c' hc'
    exact hleast c' ((stored_iff hrow).mp hc'.1) ((hg c').mpr hc'.2)

theorem Canonical.findSomeM?_eq (hA : A.Canonical) (hsq : A.nrows = A.ncols) :
    ∃ o, (List.range A.nrows).findSomeM? A.findUnmirrored = some o ∧
      (o = none ↔ A.Symmetric) ∧
      ∀ r c, o = some (r, c) → A.Unmirrored r c ∧
        ∀ r' c', A.Unmirrored r' c' → toLex (r, c) ≤ toLex (r', c') := by
  let g : ℕ → Option (ℕ × ℕ) := fun r => (A.findUnmirrored r).getD none
  have hrow : ∀ r < A.nrows, A.findUnmirrored r = some (g r) ∧
      (g r = none ↔ ∀ c, ¬ A.Unmirrored r c) ∧
      ∀ r' c, g r = some (r', c) → r' = r ∧ A.Unmirrored r c ∧
        ∀ c', A.Unmirrored r c' → c ≤ c' := by
    intro r hr
    obtain ⟨o, ho, hspec⟩ := hA.findUnmirrored_eq hsq hr
    have hgo : g r = o := by simp [g, ho]
    rw [hgo]
    exact ⟨ho, hspec⟩
  have hlt : ∀ r c, A.Unmirrored r c → r < A.nrows := fun r c h => (hA.lt_of_stored h.1).1
  refine ⟨(List.range A.nrows).findSome? g, ?_, ?_, ?_⟩
  · exact findSomeM?_some fun r hr => (hrow r (List.mem_range.mp hr)).1
  · rw [List.findSome?_eq_none_iff]
    constructor
    · intro hnone
      by_contra hasymmetric
      obtain ⟨r, c, h⟩ := not_symmetric_iff.mp hasymmetric
      exact (hrow r (hlt r c h)).2.1.mp (hnone r (List.mem_range.mpr (hlt r c h))) c h
    · intro hsymm r hr
      apply (hrow r (List.mem_range.mp hr)).2.1.mpr
      exact fun c h => h.2 (hsymm r c h.1)
  · intro r c hfound
    obtain ⟨a, ha, hga, hleast⟩ := findSome?_first List.pairwise_lt_range hfound
    obtain ⟨rfl, hunmirrored, hleast'⟩ := (hrow a (List.mem_range.mp ha)).2.2 r c hga
    refine ⟨hunmirrored, ?_⟩
    intro r' c' h
    have hle : r ≤ r' := by
      apply hleast r' (List.mem_range.mpr (hlt r' c' h))
      intro hnone
      exact (hrow r' (hlt r' c' h)).2.1.mp hnone c' h
    rw [Prod.Lex.toLex_le_toLex]
    obtain hlt | rfl := Nat.lt_or_eq_of_le hle
    · exact Or.inl hlt
    · exact Or.inr ⟨rfl, hleast' c' h⟩

theorem Canonical.patternOf_eq (hA : A.Canonical) : A.patternOf = some (A.rowPtr, A.colIdx) := by
  obtain ⟨rows, heq, -⟩ := hA.exists_rows
  have hloop : ∀ m ≤ rows.length, (List.range m).foldlM A.patternRow ([0], []) =
      some (offsets (rows.take m), (rows.take m).flatten.map Prod.fst) := by
    intro m
    induction m with
    | zero => exact fun _ => rfl
    | succ m ih =>
      intro hm
      have htake : rows.take (m + 1) = rows.take m ++ [rows[m]] := List.take_succ_eq_append_getElem hm
      have hrow : A.row m = some (rows[m].map Prod.fst, rows[m].map Prod.snd) := by
        rw [heq]
        exact row_ofRows hm
      rw [List.range_succ, List.foldlM_append, ih (Nat.le_of_succ_le hm)]
      change A.patternRow _ m >>= _ = _
      rw [patternRow, hrow, htake, offsets_concat]
      generalize rows.take m = front
      generalize rows[m] = row
      simp [Function.comp_def]
  have hall := hloop rows.length (Nat.le_refl _)
  rw [List.take_length] at hall
  have hnrows : A.nrows = rows.length := by rw [heq]; rfl
  rw [patternOf, hnrows, hall, heq]
  rfl

theorem Canonical.basePerm_eq (hA : A.Canonical) (hsq : A.nrows = A.ncols)
    (ordering : DirectOrdering) :
    ∃ perm, A.basePerm ordering = some perm ∧ perm.Perm (List.range A.nrows) := by
  cases ordering with
  | natural => exact ⟨List.range A.nrows, rfl, List.Perm.refl _⟩
  | amd =>
    obtain ⟨q, hq, hsound⟩ := hA.amdRun_sound hsq (Nat.le_refl _)
    refine ⟨q.perm, ?_, hsound.represents.perm_range⟩
    rw [basePerm, amdOrder, hq]
    rfl

/-- What holds of an analysis: `f` is its order, the base order refined by `g`. -/
structure Analyzed (A : Csr V) (L : SymbolicLdlt) (f g : ℕ ≃ ℕ) : Prop where
  n_eq : L.n = A.nrows
  order : IsOrder A.nrows L.perm (g.trans f)
  iperm_eq : L.iperm = inversePerm L.perm
  respects : Respects (renamed A.patternGraph f) g
  postordered : Postordered (renamed A.patternGraph (g.trans f)) A.nrows
  assembled : Assembled (renamed A.patternGraph (g.trans f)) A.nrows L.snodes
  nnz : ∃ cs : ℕ → List ℕ, L.nnzL = A.nrows + ((List.range A.nrows).map fun j => (cs j).length).sum ∧
    ∀ j, (cs j).Nodup ∧ ∀ i, i ∈ cs j ↔ Fill (renamed A.patternGraph (g.trans f)) j i
  pattern : L.patRowPtr = A.rowPtr ∧ L.patColIdx = A.colIdx

theorem Canonical.analyzeSymmetric_eq (hA : A.Canonical) (hsq : A.nrows = A.ncols)
    (hsymm : A.Symmetric) (ordering : DirectOrdering) :
    ∃ L base f g, A.analyzeSymmetric ordering = some L ∧ A.basePerm ordering = some base ∧
      IsOrder A.nrows base f ∧ A.Analyzed L f g := by
  obtain ⟨base, hbase, hperm⟩ := hA.basePerm_eq hsq ordering
  obtain ⟨f, hf⟩ := exists_isOrder hperm
  obtain ⟨final, g, hfinal, horder, hrespects, hpost⟩ := hA.finalPerm_eq hsq hsymm hf
  obtain ⟨S, hS, hparent, hcs⟩ := hA.structureOf_eq hsq hsymm horder
  have hexact : Exact (renamed A.patternGraph (g.trans f)) A.nrows S :=
    ⟨hparent, fun j => (hcs j).1, fun j => (hcs j).2, hA.renamed_lt hsq horder⟩
  obtain ⟨found, hfound, htiled⟩ : ∃ found, partitionColumns A.nrows S.parent S.cs (A.nrows + 1) 0
      ⟨[], fun _ => none⟩ = some found ∧ Tiled (renamed A.patternGraph (g.trans f)) S A.nrows found :=
    hexact.partitionColumns_eq tiled_nil (Nat.zero_le _) (by omega)
  have hsnodes : A.supernodes S = some (attached S found found.snodes.length) := by
    rw [supernodes, hfound, Option.bind_eq_bind, Option.bind_some]
    exact hexact.foldlM_attach htiled (Nat.le_refl _)
  refine ⟨⟨A.nrows, final, inversePerm final, attached S found found.snodes.length,
    A.nrows + ((List.range A.nrows).map fun j => (S.cs j).length).sum, A.rowPtr, A.colIdx⟩,
    base, f, g, ?_, hbase, hf, ?_⟩
  · rw [analyzeSymmetric, hbase, Option.bind_eq_bind, Option.bind_some, hfinal,
      Option.bind_eq_bind, Option.bind_some, hS, Option.bind_eq_bind, Option.bind_some, hsnodes,
      Option.bind_eq_bind, Option.bind_some, hA.patternOf_eq]
    rfl
  · exact {
      n_eq := rfl
      order := horder
      iperm_eq := rfl
      respects := hrespects
      postordered := hpost
      assembled := hexact.assembled htiled
      nnz := ⟨S.cs, rfl, fun j => ⟨(hcs j).1.imp Nat.ne_of_lt, (hcs j).2⟩⟩
      pattern := ⟨rfl, rfl⟩ }

/-- The analysis accepts what is square and symmetric. -/
theorem Canonical.analyze_cases (hA : A.Canonical) (ordering : DirectOrdering) :
    (A.nrows ≠ A.ncols ∧ A.analyze ordering = some (.error (.notSquare A.nrows A.ncols))) ∨
      (A.nrows = A.ncols ∧ ∃ r c,
        A.analyze ordering = some (.error (.structurallyAsymmetric r c)) ∧ A.Unmirrored r c ∧
        ∀ r' c', A.Unmirrored r' c' → toLex (r, c) ≤ toLex (r', c')) ∨
      (A.nrows = A.ncols ∧ A.Symmetric ∧ ∃ L, A.analyze ordering = some (.ok L) ∧
        A.analyzeSymmetric ordering = some L) := by
  by_cases hsq : A.nrows = A.ncols
  · obtain ⟨o, ho, hsymm, hfirst⟩ := hA.findSomeM?_eq hsq
    right
    cases o with
    | some entry =>
      left
      obtain ⟨hunmirrored, hleast⟩ := hfirst entry.1 entry.2 rfl
      refine ⟨hsq, entry.1, entry.2, ?_, hunmirrored, hleast⟩
      rw [analyze, if_neg (not_not.mpr hsq), ho]
      rfl
    | none =>
      right
      have hsymm := hsymm.mp rfl
      obtain ⟨L, -, -, -, hL, -⟩ := hA.analyzeSymmetric_eq hsq hsymm ordering
      refine ⟨hsq, hsymm, L, ?_, hL⟩
      rw [analyze, if_neg (not_not.mpr hsq), ho, Option.bind_eq_bind, Option.bind_some]
      dsimp only
      rw [hL]
      rfl
  · left
    exact ⟨hsq, if_pos hsq⟩

theorem Canonical.analyzed (hA : A.Canonical) {ordering : DirectOrdering} {L : SymbolicLdlt}
    (hL : A.analyze ordering = some (.ok L)) :
    ∃ base f g, A.basePerm ordering = some base ∧ IsOrder A.nrows base f ∧ A.Analyzed L f g := by
  obtain ⟨-, herror⟩ | ⟨-, r, c, herror, -⟩ | ⟨hsq, hsymm, L', hok, hL'⟩ := hA.analyze_cases ordering
  · rw [herror] at hL
    cases hL
  · rw [herror] at hL
    cases hL
  · rw [hok] at hL
    cases hL
    obtain ⟨L', base, f, g, hL'', hbase, hf, h⟩ := hA.analyzeSymmetric_eq hsq hsymm ordering
    rw [hL'] at hL''
    cases hL''
    exact ⟨base, f, g, hbase, hf, h⟩

end Csr

theorem ncard_fill {G : SimpleGraph ℕ} {n : ℕ} {cs : ℕ → List ℕ} (hlt : ∀ j i, Fill G j i → j < n)
    (hcs : ∀ j, (cs j).Nodup ∧ ∀ i, i ∈ cs j ↔ Fill G j i) :
    {entry : ℕ × ℕ | Fill G entry.1 entry.2}.ncard =
      ((List.range n).map fun j => (cs j).length).sum := by
  have hset : {entry : ℕ × ℕ | Fill G entry.1 entry.2} =
      ↑((Finset.range n).biUnion fun j => (cs j).toFinset.map ⟨fun i => (j, i), by
        intro a b hab
        exact (Prod.mk.inj hab).2⟩) := by
    ext entry
    simp only [Set.mem_ofPred_eq, Finset.coe_biUnion, Finset.coe_range, Set.mem_Iio, Finset.coe_map,
      Set.mem_iUnion, Set.mem_image, List.coe_toFinset, (hcs _).2]
    constructor
    · exact fun h => ⟨entry.1, hlt _ _ h, entry.2, h, rfl⟩
    · intro h
      obtain ⟨j, -, i, h, rfl⟩ := h
      exact h
  rw [hset, Set.ncard_coe_finset, Finset.card_biUnion, ← List.toFinset_range,
    List.sum_toFinset _ List.nodup_range]
  · congr 1
    apply List.map_congr_left
    intro j _
    rw [Finset.card_map, List.toFinset_card_of_nodup (hcs j).1]
  · intro j _ j' _ hne
    rw [Function.onFun, Finset.disjoint_left]
    intro entry hentry hentry'
    obtain ⟨i, -, rfl⟩ := Finset.mem_map.mp hentry
    obtain ⟨i', -, heq⟩ := Finset.mem_map.mp hentry'
    exact hne (Prod.mk.inj heq).1.symm

section Main

variable {A : Csr V}

/-- The analysis always returns: a refusal that names the dimensions, a refusal that names
the first stored entry without a mirror image, or a result. -/
theorem analyze_outcome (hA : A.Canonical) (ordering : DirectOrdering) :
    (A.nrows ≠ A.ncols ∧ A.analyze ordering = some (.error (.notSquare A.nrows A.ncols))) ∨
      (A.nrows = A.ncols ∧ ∃ r c,
        A.analyze ordering = some (.error (.structurallyAsymmetric r c)) ∧
        A.Stored r c ∧ ¬ A.Stored c r ∧
        ∀ r' c', A.Stored r' c' → ¬ A.Stored c' r' → toLex (r, c) ≤ toLex (r', c')) ∨
      (A.nrows = A.ncols ∧ (∀ r c, A.Stored r c → A.Stored c r) ∧
        ∃ L, A.analyze ordering = some (.ok L)) := by
  obtain hshape | ⟨hsq, r, c, herror, hentry, hleast⟩ | ⟨hsq, hsymm, L, hok, -⟩ :=
    hA.analyze_cases ordering
  · exact Or.inl hshape
  · refine Or.inr (Or.inl ⟨hsq, r, c, herror, hentry.1, hentry.2, ?_⟩)
    exact fun r' c' h h' => hleast r' c' ⟨h, h'⟩
  · exact Or.inr (Or.inr ⟨hsq, hsymm, L, hok⟩)

theorem analyze_outcome_lopsided :
    (3 ≠ 3 ∧ lopsided.analyze .natural = some (.error (.notSquare 3 3))) ∨
      (3 = 3 ∧ ∃ r c, lopsided.analyze .natural = some (.error (.structurallyAsymmetric r c)) ∧
        lopsided.Stored r c ∧ ¬ lopsided.Stored c r ∧
        ∀ r' c', lopsided.Stored r' c' → ¬ lopsided.Stored c' r' → toLex (r, c) ≤ toLex (r', c')) ∨
      (3 = 3 ∧ (∀ r c, lopsided.Stored r c → lopsided.Stored c r) ∧
        ∃ L, lopsided.analyze .natural = some (.ok L)) :=
  analyze_outcome (A := lopsided) (by decide) .natural

/-- A triangle with two horns. -/
def bull : Csr Unit :=
  ⟨5, 5, [0, 2, 3, 4, 7, 10], [3, 4, 3, 4, 0, 1, 4, 0, 2, 3], List.replicate 10 ()⟩

/-- Its analysis, in an order that is neither the given nor the base one. -/
theorem analyze_bull : ∃ L, bull.analyze .amd = some (.ok L) ∧ L.perm = [2, 1, 0, 3, 4] := by
  have hperm : (bull.analyze .amd).map (fun r => r.toOption.map SymbolicLdlt.perm) =
      some (some [2, 1, 0, 3, 4]) := by decide +kernel
  obtain ⟨r, hr, hok⟩ := Option.map_eq_some_iff.mp hperm
  obtain ⟨L, hL, hperm⟩ := Option.map_eq_some_iff.mp hok
  cases r with
  | error e => cases hL
  | ok L' =>
    cases hL
    exact ⟨L, hr, hperm⟩

/-- Whatever the analysis returns is exact: a permutation with its inverse, the number of
fill entries, and supernodes that are maximal runs of columns with one panel, the tree of
which is that of the panels. -/
theorem analyze_assembled (hA : A.Canonical) {ordering : DirectOrdering} {L : SymbolicLdlt}
    (hL : A.analyze ordering = some (.ok L)) :
    ∃ f : ℕ ≃ ℕ, L.perm = (List.range A.nrows).map f ∧ (∀ k, f k < A.nrows ↔ k < A.nrows) ∧
      (∀ k < A.nrows, L.iperm (f k) = k) ∧
      L.nnzL = A.nrows +
        {entry : ℕ × ℕ | Fill (renamed A.patternGraph f) entry.1 entry.2}.ncard ∧
      Assembled (renamed A.patternGraph f) A.nrows L.snodes := by
  obtain ⟨base, f, g, -, -, h⟩ := hA.analyzed hL
  refine ⟨g.trans f, h.order.eq_map, h.order.lt_iff, ?_, ?_, h.assembled⟩
  · intro k hk
    rw [h.iperm_eq, h.order.inversePerm_eq ((h.order.lt_iff k).mpr hk), Equiv.symm_apply_apply]
  · obtain ⟨cs, hnnz, hcs⟩ := h.nnz
    rw [hnnz, ncard_fill _ hcs]
    intro j i hfill
    have hsq : A.nrows = A.ncols := by
      obtain ⟨-, herror⟩ | ⟨hsq, -⟩ | ⟨hsq, -⟩ := hA.analyze_cases ordering
      · rw [herror] at hL
        cases hL
      · exact hsq
      · exact hsq
    obtain ⟨hlt, d, hadj, -⟩ := fill_iff_ancestor.mp hfill
    exact Nat.lt_trans hlt (hA.renamed_lt hsq h.order _ _ hadj.symm)

theorem analyze_assembled_bull :
    ∃ L, bull.analyze .amd = some (.ok L) ∧ L.perm = [2, 1, 0, 3, 4] ∧
      ∃ f : ℕ ≃ ℕ, L.perm = (List.range 5).map f ∧ (∀ k, f k < 5 ↔ k < 5) ∧
        (∀ k < 5, L.iperm (f k) = k) ∧
        L.nnzL =
          5 + {entry : ℕ × ℕ | Fill (renamed bull.patternGraph f) entry.1 entry.2}.ncard ∧
        Assembled (renamed bull.patternGraph f) 5 L.snodes := by
  obtain ⟨L, hL, hperm⟩ := analyze_bull
  exact ⟨L, hL, hperm, analyze_assembled (A := bull) (by decide) hL⟩

/-- The final order refines the base order along its elimination tree: the fill and the tree
stay those of the base order, every vertex of that tree comes before its parent, and what is
below a vertex is a block of positions that ends at it. -/
theorem analyze_postordered (hA : A.Canonical) {ordering : DirectOrdering} {L : SymbolicLdlt}
    (hL : A.analyze ordering = some (.ok L)) :
    ∃ (base : List ℕ) (f g : ℕ ≃ ℕ), A.basePerm ordering = some base ∧
      base = (List.range A.nrows).map f ∧ L.perm = (List.range A.nrows).map (g.trans f) ∧
      (∀ i j, Fill (renamed A.patternGraph (g.trans f)) i j ↔
        Fill (renamed A.patternGraph f) (g i) (g j)) ∧
      (∀ j p, IsParent (renamed A.patternGraph (g.trans f)) j p ↔
        IsParent (renamed A.patternGraph f) (g j) (g p)) ∧
      (∀ v w, IsParent (renamed A.patternGraph f) v w → g.symm v < g.symm w) ∧
      ∀ k < A.nrows, ∃ s ≤ k, ∀ u,
        Ancestor (renamed A.patternGraph (g.trans f)) u k ↔ s ≤ u ∧ u ≤ k := by
  obtain ⟨base, f, g, hbase, hf, h⟩ := hA.analyzed hL
  have hparent : ∀ j p, IsParent (renamed A.patternGraph (g.trans f)) j p ↔
      IsParent (renamed A.patternGraph f) (g j) (g p) :=
    fun j p => h.respects.isParent_iff (i := j) (j := p)
  refine ⟨base, f, g, hbase, hf.eq_map, h.order.eq_map, ?_, hparent, ?_, h.postordered⟩
  · exact fun i j => h.respects.fill_iff (i := i) (j := j)
  · intro v w hvw
    apply IsParent.lt
    rwa [hparent, Equiv.apply_symm_apply, Equiv.apply_symm_apply]

theorem analyze_postordered_bull :
    ∃ L, bull.analyze .amd = some (.ok L) ∧ L.perm = [2, 1, 0, 3, 4] ∧
      ∃ (base : List ℕ) (f g : ℕ ≃ ℕ), bull.basePerm .amd = some base ∧
        base = (List.range 5).map f ∧ L.perm = (List.range 5).map (g.trans f) ∧
        (∀ i j, Fill (renamed bull.patternGraph (g.trans f)) i j ↔
          Fill (renamed bull.patternGraph f) (g i) (g j)) ∧
        (∀ j p, IsParent (renamed bull.patternGraph (g.trans f)) j p ↔
          IsParent (renamed bull.patternGraph f) (g j) (g p)) ∧
        (∀ v w, IsParent (renamed bull.patternGraph f) v w → g.symm v < g.symm w) ∧
        ∀ k < 5, ∃ s ≤ k, ∀ u,
          Ancestor (renamed bull.patternGraph (g.trans f)) u k ↔ s ≤ u ∧ u ≤ k := by
  obtain ⟨L, hL, hperm⟩ := analyze_bull
  exact ⟨L, hL, hperm, analyze_postordered (A := bull) (by decide) hL⟩

end Main

end FrankenSim.Sparse
