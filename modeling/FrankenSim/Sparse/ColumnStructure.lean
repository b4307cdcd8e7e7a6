import FrankenSim.Sparse.Adjacency
import FrankenSim.Sparse.EliminationForest

/-!
# The column structures

Row `i` climbs the tree from each of its earlier neighbours until it meets its own stamp.
It enters exactly the columns that fill it, so that in the end the structure of a column
is its fill, ascending because the rows come in order.
-/
namespace FrankenSim.Sparse

open Library

variable {G : SimpleGraph ℕ} {n i j t : ℕ} {js : List ℕ} {parent : ℕ → Option ℕ}

/-- Row `i` has entered the columns of `E`. -/
structure Entered (G : SimpleGraph ℕ) (i : ℕ) (E : Set ℕ) (columns : Columns) : Prop where
  mem_iff : ∀ t r, r ∈ columns.cs t ↔ r < i ∧ Fill G t r ∨ r = i ∧ t ∈ E
  sorted : ∀ t, (columns.cs t).Pairwise (· < ·)
  stamp_iff : ∀ t, columns.stamp t = some i ↔ t = i ∨ t ∈ E
  stamp_le : ∀ t s, columns.stamp t = some s → s ≤ i

theorem Entered.push {E : Set ℕ} {columns : Columns} (h : Entered G i E columns) (hlt : t < i)
    (ht : t ∉ E) :
    Entered G i (insert t E) ⟨Sparse.push columns.cs t i, put columns.stamp t (some i)⟩ := by
  constructor
  case mem_iff =>
    intro s r
    dsimp only
    rw [mem_push, h.mem_iff, Set.mem_insert_iff]
    tauto
  case sorted =>
    intro s
    dsimp only
    by_cases hst : s = t
    · subst hst
      rw [push_self, List.pairwise_append]
      refine ⟨h.sorted s, List.pairwise_singleton _ _, ?_⟩
      intro r hr i' hi'
      rw [List.mem_singleton.mp hi']
      cases (h.mem_iff s r).mp hr with
      | inl hold => exact hold.1
      | inr hnew => exact absurd hnew.2 ht
    · rw [push_of_ne hst]
      exact h.sorted s
  case stamp_iff =>
    intro s
    dsimp only
    by_cases hst : s = t
    · subst hst
      simp
    · rw [put, Function.update_of_ne hst, h.stamp_iff, Set.mem_insert_iff]
      simp [hst]
  case stamp_le =>
    intro s r hs
    dsimp only at hs
    by_cases hst : s = t
    · subst hst
      rw [put, Function.update_self] at hs
      cases hs
      exact Nat.le_refl _
    · rw [put, Function.update_of_ne hst] at hs
      exact h.stamp_le s r hs

/-- The climb from `t` enters the columns of its path below `i`. -/
theorem Entered.enterRow (hparent : ∀ j p, parent j = some p ↔ IsParent G j p) {fuel : ℕ}
    {E : Set ℕ} {columns : Columns} (h : Entered G i E columns) (ht : Ancestor G t i)
    (hclosed : ∀ s ∈ E, Ancestor G t s → ∀ r, Ancestor G s r → r < i → r ∈ E)
    (hfuel : i - t < fuel) :
    ∃ columns', Sparse.enterRow parent i fuel columns t = some columns' ∧
      Entered G i (E ∪ {s | Ancestor G t s ∧ s < i}) columns' := by
  induction fuel generalizing t E columns with
  | zero => exact absurd hfuel (Nat.not_lt_zero _)
  | succ fuel ih =>
    rw [Sparse.enterRow]
    by_cases hstop : t = i ∨ columns.stamp t = some i
    · rw [if_pos hstop]
      refine ⟨columns, rfl, ?_⟩
      have hsame : E ∪ {s | Ancestor G t s ∧ s < i} = E := by
        rw [Set.union_eq_left]
        intro s hs
        have hti : t ≠ i := Nat.ne_of_lt (Nat.lt_of_le_of_lt (Ancestor.le hs.1) hs.2)
        have htE : t ∈ E := by
          cases hstop with
          | inl heq => exact absurd heq hti
          | inr hstamp =>
            cases (h.stamp_iff t).mp hstamp with
            | inl heq => exact absurd heq hti
            | inr hmem => exact hmem
        exact hclosed t htE Relation.ReflTransGen.refl s hs.1 hs.2
      rw [hsame]
      exact h
    · rw [if_neg hstop]
      rw [h.stamp_iff] at hstop
      have hti : t ≠ i := fun heq => hstop (Or.inl heq)
      have htE : t ∉ E := fun hmem => hstop (Or.inr (Or.inr hmem))
      obtain heq | ⟨p, hp, hpi⟩ := Relation.ReflTransGen.cases_head ht
      · exact absurd heq hti
      have hlt : t < i := Nat.lt_of_le_of_ne (Ancestor.le ht) hti
      have hup := hp.lt
      have hclosed' : ∀ s ∈ insert t E, Ancestor G p s → ∀ r, Ancestor G s r → r < i →
          r ∈ insert t E := by
        intro s hs hps r hsr hr
        cases Set.mem_insert_iff.mp hs with
        | inl heq => exact absurd (Ancestor.le (heq ▸ hps)) (Nat.not_le_of_lt hup)
        | inr hs =>
          exact Set.mem_insert_of_mem _
            (hclosed s hs (Relation.ReflTransGen.head hp hps) r hsr hr)
      obtain ⟨columns', hrun, hentered⟩ := ih (h.push hlt htE) hpi hclosed' (by omega)
      refine ⟨columns', ?_, ?_⟩
      · rw [(hparent t p).mpr hp]
        exact hrun
      · have hset : E ∪ {s | Ancestor G t s ∧ s < i} =
            insert t E ∪ {s | Ancestor G p s ∧ s < i} := by
          ext s
          simp only [Set.mem_union, Set.mem_insert_iff, Set.mem_ofPred_eq]
          constructor
          · intro hs
            obtain hs | ⟨hts, hsi⟩ := hs
            · exact Or.inl (Or.inr hs)
            · by_cases hst : t = s
              · exact Or.inl (Or.inl hst.symm)
              · exact Or.inr ⟨Ancestor.of_parent hts hp hst, hsi⟩
          · intro hs
            obtain (rfl | hs) | ⟨hps, hsi⟩ := hs
            · exact Or.inr ⟨Relation.ReflTransGen.refl, hlt⟩
            · exact Or.inl hs
            · exact Or.inr ⟨Relation.ReflTransGen.head hp hps, hsi⟩
        rw [hset]
        exact hentered

def pathsBelow (G : SimpleGraph ℕ) (i : ℕ) (js : List ℕ) : Set ℕ :=
  {s | s < i ∧ ∃ j ∈ js, Ancestor G j s}

theorem Entered.foldlM_enterRow (hparent : ∀ j p, parent j = some p ↔ IsParent G j p)
    {ks : List ℕ} {columns : Columns} (h : Entered G i (pathsBelow G i js) columns) (hn : i < n)
    (hks : ∀ j ∈ ks, Fill G j i) :
    ∃ columns', ks.foldlM (Sparse.enterRow parent i n) columns = some columns' ∧
      Entered G i (pathsBelow G i (js ++ ks)) columns' := by
  induction ks generalizing js columns with
  | nil =>
    refine ⟨columns, rfl, ?_⟩
    rw [List.append_nil]
    exact h
  | cons j ks ih =>
    have hclosed : ∀ s ∈ pathsBelow G i js, Ancestor G j s → ∀ r, Ancestor G s r → r < i →
        r ∈ pathsBelow G i js := by
      intro s hs _ r hsr hr
      obtain ⟨-, k, hk, hks⟩ := hs
      exact ⟨hr, k, hk, hks.trans hsr⟩
    obtain ⟨mid, hmid, hentered⟩ := h.enterRow hparent (hks j List.mem_cons_self).ancestor hclosed
      (Nat.lt_of_le_of_lt (Nat.sub_le i j) hn)
    have hset : pathsBelow G i js ∪ {s | Ancestor G j s ∧ s < i} = pathsBelow G i (js ++ [j]) := by
      ext s
      simp only [pathsBelow, Set.mem_union, Set.mem_ofPred_eq, List.mem_append, List.mem_singleton]
      constructor
      · intro hs
        obtain ⟨hlt, k, hk, hks⟩ | ⟨hjs, hlt⟩ := hs
        · exact ⟨hlt, k, Or.inl hk, hks⟩
        · exact ⟨hlt, j, Or.inr rfl, hjs⟩
      · intro hs
        obtain ⟨hlt, k, hk, hpath⟩ := hs
        cases hk with
        | inl hk => exact Or.inl ⟨hlt, k, hk, hpath⟩
        | inr heq => exact Or.inr ⟨heq ▸ hpath, hlt⟩
    rw [hset] at hentered
    obtain ⟨columns', hrun, hentered'⟩ :=
      ih hentered fun j hj => hks j (List.mem_cons_of_mem _ hj)
    refine ⟨columns', ?_, ?_⟩
    · rw [List.foldlM_cons, hmid]
      exact hrun
    · rw [List.append_assoc] at hentered'
      exact hentered'

structure Filled (G : SimpleGraph ℕ) (i : ℕ) (columns : Columns) : Prop where
  mem_iff : ∀ t r, r ∈ columns.cs t ↔ r < i ∧ Fill G t r
  sorted : ∀ t, (columns.cs t).Pairwise (· < ·)
  stamp_lt : ∀ t s, columns.stamp t = some s → s < i

theorem Filled.columnsRow (hparent : ∀ j p, parent j = some p ↔ IsParent G j p)
    {ladj : ℕ → List ℕ} (hladj : LowerAdjacent G n ladj) {columns : Columns}
    (h : Filled G i columns) (hn : i < n) :
    ∃ columns', Sparse.columnsRow n ladj parent columns i = some columns' ∧
      Filled G (i + 1) columns' := by
  have hmem := hladj i hn
  have hstart : Entered G i (pathsBelow G i []) ⟨columns.cs, put columns.stamp i (some i)⟩ := by
    have hempty : ∀ t, t ∉ pathsBelow G i [] := by
      intro t ht
      obtain ⟨-, k, hk, -⟩ := ht
      exact List.not_mem_nil hk
    constructor
    case mem_iff =>
      intro t r
      rw [h.mem_iff]
      simp [hempty t]
    case sorted => exact h.sorted
    case stamp_iff =>
      intro t
      dsimp only
      by_cases hti : t = i
      · subst hti
        simp
      · rw [put, Function.update_of_ne hti]
        simp only [hti, hempty t, or_false, iff_false]
        intro hstamp
        exact Nat.lt_irrefl i (h.stamp_lt t i hstamp)
    case stamp_le =>
      intro t s hs
      dsimp only at hs
      by_cases hti : t = i
      · subst hti
        rw [put, Function.update_self] at hs
        cases hs
        exact Nat.le_refl _
      · rw [put, Function.update_of_ne hti] at hs
        exact Nat.le_of_lt (h.stamp_lt t s hs)
  have hfill : ∀ j ∈ ladj i, Fill G j i := by
    intro j hj
    exact fill_of_adj ((hmem j).mp hj).2 ((hmem j).mp hj).1
  obtain ⟨columns', hrun, hentered⟩ := hstart.foldlM_enterRow hparent hn hfill
  refine ⟨columns', hrun, ?_, hentered.sorted, ?_⟩
  · intro t r
    have hrow : t ∈ pathsBelow G i ([] ++ ladj i) ↔ Fill G t i := by
      rw [fill_iff_ancestor, List.nil_append]
      constructor
      · intro ht
        obtain ⟨hlt, j, hj, hjt⟩ := ht
        exact ⟨hlt, j, ((hmem j).mp hj).2, hjt⟩
      · intro ht
        obtain ⟨hlt, j, hadj, hjt⟩ := ht
        exact ⟨hlt, j, (hmem j).mpr ⟨Nat.lt_of_le_of_lt (Ancestor.le hjt) hlt, hadj⟩, hjt⟩
    rw [hentered.mem_iff, hrow, Nat.lt_succ_iff_lt_or_eq]
    constructor
    · intro hr
      cases hr with
      | inl hold => exact ⟨Or.inl hold.1, hold.2⟩
      | inr hnew => exact ⟨Or.inr hnew.1, hnew.1 ▸ hnew.2⟩
    · intro hr
      cases hr.1 with
      | inl hlt => exact Or.inl ⟨hlt, hr.2⟩
      | inr heq => exact Or.inr ⟨heq, heq ▸ hr.2⟩
  · exact fun t s hs => Nat.lt_succ_of_le (hentered.stamp_le t s hs)

theorem filled_foldlM (hparent : ∀ j p, parent j = some p ↔ IsParent G j p)
    {ladj : ℕ → List ℕ} (hladj : LowerAdjacent G n ladj) (hi : i ≤ n) :
    ∃ columns, (List.range i).foldlM (columnsRow n ladj parent) ⟨fun _ => [], fun _ => none⟩ =
      some columns ∧ Filled G i columns := by
  induction i with
  | zero =>
    refine ⟨⟨fun _ => [], fun _ => none⟩, rfl, ?_, ?_, ?_⟩
    · intro t r
      simp
    · exact fun t => List.Pairwise.nil
    · exact fun t s h => by cases h
  | succ i ih =>
    obtain ⟨columns, hcolumns, hfilled⟩ := ih (Nat.le_of_succ_le hi)
    obtain ⟨columns', hrow, hfilled'⟩ := hfilled.columnsRow hparent hladj hi
    refine ⟨columns', ?_, hfilled'⟩
    rw [List.range_succ, List.foldlM_append, hcolumns]
    change (columnsRow n ladj parent columns i >>= pure) = _
    rw [bind_pure]
    exact hrow

/-- The structure of a column is its fill, in ascending order. -/
theorem colStructs_eq (hparent : ∀ j p, parent j = some p ↔ IsParent G j p)
    {ladj : ℕ → List ℕ} (hladj : LowerAdjacent G n ladj) (hlt : ∀ i j, G.Adj i j → i < n) :
    ∃ cs, colStructs n ladj parent = some cs ∧
      ∀ j, (cs j).Pairwise (· < ·) ∧ ∀ i, i ∈ cs j ↔ Fill G j i := by
  obtain ⟨columns, hcolumns, hfilled⟩ := filled_foldlM hparent hladj (Nat.le_refl n)
  refine ⟨columns.cs, ?_, ?_⟩
  · rw [colStructs, hcolumns]
    rfl
  · intro j
    refine ⟨hfilled.sorted j, ?_⟩
    intro i
    rw [hfilled.mem_iff, and_iff_right_iff_imp]
    intro h
    obtain ⟨-, k, hadj, -⟩ := fill_iff_ancestor.mp h
    exact hlt i k hadj.symm

end FrankenSim.Sparse
