import FrankenSim.Sparse.QuotientGraph

/-!
# The ordering

The recorded degree of a live variable is at least its degree in the elimination graph,
and equal to it where the variable touches two elements at most. The heap always has the
current entries, so that every elimination finds a pivot, the least variable of least
recorded degree, and the run ends with a permutation.
-/
namespace FrankenSim.Sparse

open Library

open Classical in
noncomputable def trueDegree (H : SimpleGraph ℕ) (n i : ℕ) : ℕ :=
  ((Finset.range n).filter fun j => H.Adj i j).card

namespace Quotient

/-- The recorded degrees are upper bounds, exact where two elements are touched at most. -/
structure Graded (n : ℕ) (H : SimpleGraph ℕ) (q : Quotient) : Prop where
  le_degree : ∀ i, q.Live n i → trueDegree H n i ≤ q.degree i
  exact_of_two : ∀ i, q.Live n i → (q.elemsOf i).length ≤ 2 → q.degree i = trueDegree H n i

section Step

variable {q q' : Quotient} {n step p : ℕ} {H : SimpleGraph ℕ} {lp : List ℕ}
  {rest : List (ℕ ×ₗ ℕ)}

/-- Away from the boundary the neighbours stay the same. -/
theorem trueDegree_eliminate (hp : ¬ H.Adj p i) (hip : i ≠ p) :
    trueDegree (eliminate H p) n i = trueDegree H n i := by
  classical
  unfold trueDegree
  congr 1
  apply Finset.filter_congr
  intro j _
  rw [eliminate_adj]
  constructor
  · intro hadj
    cases hadj.2.2.2 with
    | inl hadj => exact hadj
    | inr hadj => exact absurd hadj.1.symm hp
  · intro hadj
    refine ⟨hadj.ne, hip, ?_, Or.inl hadj⟩
    intro hjp
    exact hp (hjp ▸ hadj.symm)

/-- No variable has more neighbours than variables are left beside it. -/
theorem Represents.trueDegree_le (h : Represents n (step + 1) H q) (i : ℕ) :
    trueDegree H n i ≤ n - step - 1 := by
  classical
  have hsub : ((Finset.range n).filter fun j => H.Adj i j) ⊆
      (Finset.range n) \ q.perm.toFinset := by
    intro j hj
    obtain ⟨hjn, hadj⟩ := Finset.mem_filter.mp hj
    have hlive := h.live_of_adj j i hadj.symm
    rw [Finset.mem_sdiff, List.mem_toFinset]
    exact ⟨hjn, (h.alive_iff j hlive.1).mp hlive.2⟩
  have hperm : q.perm.toFinset ⊆ Finset.range n := by
    intro v hv
    exact Finset.mem_range.mpr (h.perm_lt v (List.mem_toFinset.mp hv))
  have hcard := Finset.card_le_card hsub
  rw [Finset.card_sdiff_of_subset hperm, List.toFinset_card_of_nodup h.perm_nodup,
    h.perm_length, Finset.card_range] at hcard
  unfold trueDegree
  omega

def outsideSet (q : Quotient) (lp : List ℕ) (e : ℕ) : Finset ℕ :=
  ((q.elemVars e).filter fun v => q.varAlive v && decide (v ∉ lp)).toFinset

theorem Represents.card_outsideSet (h : Represents n step H q) {e : ℕ}
    (he : q.elemAlive e = true) : (q.outsideSet lp e).card = q.outside lp e := by
  rw [outsideSet, List.toFinset_card_of_nodup ((h.vars_nodup e he).filter _), outside,
    List.countP_eq_length_filter]

/-- The neighbours of a variable of the boundary come from its list, the boundary and its
other elements. -/
theorem Represents.neighbors_eq (h : Represents n step H q) (hp : q.Live n p)
    (he : Eliminated n step p lp rest q q') (hnodup : lp.Nodup)
    (hmem : ∀ v, v ∈ lp ↔ q.Live n v ∧ v ≠ p ∧ H.Adj p v) {i : ℕ} (hi : i ∈ lp) (j : ℕ) :
    (eliminate H p).Adj i j ↔ j ∈ (q'.adj i).toFinset ∪ (lp.toFinset.erase i ∪
      (((q.elemsOf i).filter fun e => q'.elemAlive e).toFinset.biUnion (q'.outsideSet lp))) := by
  have hnext := h.next hp he hnodup hmem
  have hlive : q.Live n i ∧ i ≠ p := ⟨((hmem i).mp hi).1, ((hmem i).mp hi).2.1⟩
  have hlive' := (he.live_iff i).mpr hlive
  have hvars : ∀ e ∈ q.elemsOf i, q'.elemVars e = q.elemVars e := by
    intro e hmember
    have hep : e ≠ p := fun heq => h.not_mem_elemsOf hp hlive.1 (heq ▸ hmember)
    rw [he.elemVars, if_neg hep]
  simp only [Finset.mem_union, Finset.mem_erase, List.mem_toFinset, Finset.mem_biUnion,
    List.mem_filter, outsideSet, Bool.and_eq_true, decide_eq_true_eq]
  constructor
  · intro hadj
    have hj := hnext.live_of_adj j i hadj.symm
    obtain ⟨hij, hadj⟩ := (hnext.adj_iff i j hlive' hj).mp hadj
    cases hadj with
    | inl hadj => exact Or.inl hadj
    | inr hadj =>
      right
      obtain ⟨e, hmember, hvar⟩ := hadj
      by_cases hjlp : j ∈ lp
      · exact Or.inl ⟨hij.symm, hjlp⟩
      · cases (h.mem_elemsOf_iff hp he hmem hlive' e).mp hmember with
        | inl hnew =>
          rw [he.elemVars, if_pos hnew.1] at hvar
          exact absurd hvar hjlp
        | inr hold => exact Or.inr ⟨e, hold, hvar, hj.2, hjlp⟩
  · intro hj
    obtain hj | hj | hj := hj
    · have hj' := hnext.adj_live i hlive' j hj
      exact (hnext.adj_iff i j hlive' hj'.1).mpr ⟨hj'.2.symm, Or.inl hj⟩
    · have hj' := (he.live_iff j).mpr ⟨((hmem j).mp hj.2).1, ((hmem j).mp hj.2).2.1⟩
      refine (hnext.adj_iff i j hlive' hj').mpr ⟨hj.1.symm, Or.inr ⟨p, ?_, ?_⟩⟩
      · exact (h.mem_elemsOf_iff hp he hmem hlive' p).mpr (Or.inl ⟨rfl, hi⟩)
      · rw [he.elemVars, if_pos rfl]
        exact hj.2
    · obtain ⟨e, hmember, hvar, halive, hout⟩ := hj
      have hj' : q'.Live n j := ⟨hnext.vars_lt e hmember.2 j hvar, halive⟩
      refine (hnext.adj_iff i j hlive' hj').mpr ⟨?_, Or.inr ⟨e, ?_, hvar⟩⟩
      · intro hij
        exact hout (hij ▸ hi)
      · exact (h.mem_elemsOf_iff hp he hmem hlive' e).mpr (Or.inr hmember)

theorem eq_of_length_le_one {es : List ℕ} (h : es.length ≤ 1) {a b : ℕ} (ha : a ∈ es)
    (hb : b ∈ es) : a = b := by
  cases es with
  | nil => exact absurd ha List.not_mem_nil
  | cons e es =>
    obtain rfl : es = [] := List.eq_nil_of_length_eq_zero (Nat.le_zero.mp (Nat.le_of_succ_le_succ h))
    rw [List.mem_singleton.mp ha, List.mem_singleton.mp hb]

/-- The three kinds of neighbours added up. -/
def neighborSum (q q' : Quotient) (lp : List ℕ) (i : ℕ) : ℕ :=
  (q'.adj i).length + (lp.length - 1) +
    (((q.elemsOf i).filter fun e => q'.elemAlive e).map (q'.outside lp)).sum

theorem Represents.neighborSum_spec (h : Represents n step H q) (hp : q.Live n p)
    (he : Eliminated n step p lp rest q q') (hnodup : lp.Nodup)
    (hmem : ∀ v, v ∈ lp ↔ q.Live n v ∧ v ≠ p ∧ H.Adj p v) {i : ℕ} (hi : i ∈ lp) :
    trueDegree (eliminate H p) n i ≤ neighborSum q q' lp i ∧
      ((q'.elemsOf i).length ≤ 2 → neighborSum q q' lp i = trueDegree (eliminate H p) n i) := by
  classical
  have hnext := h.next hp he hnodup hmem
  have hlive : q.Live n i ∧ i ≠ p := ⟨((hmem i).mp hi).1, ((hmem i).mp hi).2.1⟩
  have hlive' := (he.live_iff i).mpr hlive
  generalize helems : ((q.elemsOf i).filter fun e => q'.elemAlive e) = es
  have hes : ∀ e ∈ es, q'.elemAlive e = true ∧ e ∈ q'.elemsOf i := by
    intro e hmember
    rw [← helems, List.mem_filter] at hmember
    exact ⟨hmember.2, (h.mem_elemsOf_iff hp he hmem hlive' e).mpr (Or.inr hmember)⟩
  have hnodupes : es.Nodup := helems ▸ (h.elems_nodup i hlive.1).filter _
  have hset : ((Finset.range n).filter fun j => (eliminate H p).Adj i j) =
      (q'.adj i).toFinset ∪ (lp.toFinset.erase i ∪ es.toFinset.biUnion (q'.outsideSet lp)) := by
    ext j
    rw [Finset.mem_filter, h.neighbors_eq hp he hnodup hmem hi j, helems, Finset.mem_range,
      and_iff_right_iff_imp, ← helems, ← h.neighbors_eq hp he hnodup hmem hi j]
    exact fun hadj => (hnext.live_of_adj j i hadj.symm).1
  have hadj : (q'.adj i).toFinset.card = (q'.adj i).length :=
    List.toFinset_card_of_nodup (hnext.adj_nodup i hlive')
  have hlp : (lp.toFinset.erase i).card = lp.length - 1 := by
    rw [Finset.card_erase_of_mem (List.mem_toFinset.mpr hi), List.toFinset_card_of_nodup hnodup]
  have hsum : (es.map (q'.outside lp)).sum = ∑ e ∈ es.toFinset, (q'.outsideSet lp e).card := by
    rw [List.map_congr_left fun e hmember => (hnext.card_outsideSet (hes e hmember).1).symm,
      List.sum_toFinset _ hnodupes]
  unfold trueDegree neighborSum
  rw [hset, helems, hsum, ← hadj, ← hlp]
  constructor
  · have hunion := Finset.card_union_le (q'.adj i).toFinset
      (lp.toFinset.erase i ∪ es.toFinset.biUnion (q'.outsideSet lp))
    have hunion' := Finset.card_union_le (lp.toFinset.erase i)
      (es.toFinset.biUnion (q'.outsideSet lp))
    have hbiUnion := Finset.card_biUnion_le (s := es.toFinset) (t := q'.outsideSet lp)
    omega
  · intro htwo
    rw [he.elemsOf i hlive.2, if_pos hi, helems, List.length_append, List.length_singleton] at htwo
    -- one element besides the new one: the three kinds do not meet
    have hone : (es.toFinset.biUnion (q'.outsideSet lp)).card =
        ∑ e ∈ es.toFinset, (q'.outsideSet lp e).card := by
      apply Finset.card_biUnion
      intro e hmember e' hmember' hne
      exact absurd (eq_of_length_le_one (Nat.le_of_succ_le_succ htwo)
        (List.mem_toFinset.mp hmember) (List.mem_toFinset.mp hmember')) hne
    have hout : ∀ j ∈ es.toFinset.biUnion (q'.outsideSet lp), j ∉ lp ∧ j ∉ q'.adj i := by
      intro j hj
      obtain ⟨e, hmember, hj⟩ := Finset.mem_biUnion.mp hj
      simp only [outsideSet, List.mem_toFinset, List.mem_filter, Bool.and_eq_true,
        decide_eq_true_eq] at hj
      have hmember := (hes e (List.mem_toFinset.mp hmember)).2
      exact ⟨hj.2.2, fun hadj => hnext.covered i e j hlive' hadj hmember hj.1⟩
    have hpruned : ∀ j ∈ q'.adj i, j ∉ lp := by
      intro j hj
      exact ((he.mem_adj_iff (h.alive_of_mem_adj hp he hmem hlive')).mp hj).2.2 hi
    rw [Finset.card_union_of_disjoint, Finset.card_union_of_disjoint, hone, Nat.add_assoc]
    · rw [Finset.disjoint_left]
      intro j hj hj'
      exact (hout j hj').1 (List.mem_toFinset.mp (Finset.mem_of_mem_erase hj))
    · rw [Finset.disjoint_left]
      intro j hj hj'
      rw [List.mem_toFinset] at hj
      cases Finset.mem_union.mp hj' with
      | inl hj' => exact hpruned j hj (List.mem_toFinset.mp (Finset.mem_of_mem_erase hj'))
      | inr hj' => exact (hout j hj').2 hj

theorem Graded.next (hg : Graded n H q) (h : Represents n step H q) (hp : q.Live n p)
    (he : Eliminated n step p lp rest q q') (hnodup : lp.Nodup)
    (hmem : ∀ v, v ∈ lp ↔ q.Live n v ∧ v ≠ p ∧ H.Adj p v) :
    Graded n (eliminate H p) q' := by
  have hnext := h.next hp he hnodup hmem
  have hsame : ∀ i, q.Live n i → i ≠ p → i ∉ lp →
      trueDegree (eliminate H p) n i = trueDegree H n i := by
    intro i hlive hip hin
    apply trueDegree_eliminate _ hip
    exact fun hadj => hin ((hmem i).mpr ⟨hlive, hip, hadj⟩)
  have hmin : ∀ i ∈ lp, q'.degree i = min (neighborSum q q' lp i) (n - step - 1) :=
    fun i hi => (he.degree i).trans (if_pos hi)
  constructor
  case le_degree =>
    intro i hi
    obtain ⟨hlive, hip⟩ := (he.live_iff i).mp hi
    by_cases hin : i ∈ lp
    · rw [hmin i hin]
      exact le_min (h.neighborSum_spec hp he hnodup hmem hin).1 (hnext.trueDegree_le _)
    · rw [he.degree, if_neg hin, hsame i hlive hip hin]
      exact hg.le_degree i hlive
  case exact_of_two =>
    intro i hi htwo
    obtain ⟨hlive, hip⟩ := (he.live_iff i).mp hi
    by_cases hin : i ∈ lp
    · rw [hmin i hin, (h.neighborSum_spec hp he hnodup hmem hin).2 htwo]
      exact min_eq_left (hnext.trueDegree_le _)
    · rw [he.degree, if_neg hin, hsame i hlive hip hin]
      apply hg.exact_of_two i hlive
      rwa [he.elemsOf i hip, if_neg hin] at htwo

theorem foldl_orderedInsert_perm (f : ℕ → ℕ ×ₗ ℕ) (is : List ℕ) (heap : List (ℕ ×ₗ ℕ)) :
    (is.foldl (fun heap i => heap.orderedInsert (· ≤ ·) (f i)) heap).Perm (is.map f ++ heap) := by
  induction is generalizing heap with
  | nil => exact List.Perm.refl _
  | cons i is ih =>
    apply (ih _).trans
    apply (List.Perm.append_left _ (List.perm_orderedInsert _ _ _)).trans
    rw [List.map_cons, List.cons_append]
    exact List.perm_middle

theorem foldl_orderedInsert_sorted (f : ℕ → ℕ ×ₗ ℕ) (is : List ℕ) {heap : List (ℕ ×ₗ ℕ)}
    (h : heap.Pairwise (· ≤ ·)) :
    (is.foldl (fun heap i => heap.orderedInsert (· ≤ ·) (f i)) heap).Pairwise (· ≤ ·) := by
  induction is generalizing heap with
  | nil => exact h
  | cons i is ih => exact ih (h.orderedInsert _ _)

theorem Queued.next (hq : Queued n q) (hsub : rest.Sublist q.heap)
    (hrest : ∀ entry ∈ q.heap, q.Current entry → entry ≠ toLex (q.degree p, p) → entry ∈ rest)
    (he : Eliminated n step p lp rest q q') (hlp : ∀ v ∈ lp, v < n) : Queued n q' := by
  have hmem : ∀ entry, entry ∈ q'.heap ↔
      entry ∈ lp.map (fun i => toLex (q'.degree i, i)) ∨ entry ∈ rest := by
    intro entry
    rw [he.heap, (foldl_orderedInsert_perm _ _ _).mem_iff, List.mem_append]
  constructor
  case sorted =>
    rw [he.heap]
    exact foldl_orderedInsert_sorted _ _ (hq.sorted.sublist hsub)
  case entry_mem =>
    intro i hi
    obtain ⟨hlive, hip⟩ := (he.live_iff i).mp hi
    rw [hmem]
    by_cases hin : i ∈ lp
    · exact Or.inl (List.mem_map.mpr ⟨i, hin, rfl⟩)
    · right
      rw [he.degree, if_neg hin]
      apply hrest _ (hq.entry_mem i hlive) ⟨hlive.2, rfl⟩
      intro heq
      exact hip (congrArg (fun entry => (ofLex entry).2) heq)
  case entry_lt =>
    intro entry hentry
    cases (hmem entry).mp hentry with
    | inl hnew =>
      obtain ⟨i, hi, rfl⟩ := List.mem_map.mp hnew
      exact hlp i hi
    | inr hold => exact hq.entry_lt entry (hsub.mem hold)

end Step

structure Sound (n step : ℕ) (G : SimpleGraph ℕ) (q : Quotient) : Prop where
  represents : Represents n step (eliminateAll G q.perm) q
  queued : Queued n q
  graded : Graded n (eliminateAll G q.perm) q

section Run

variable {n step p : ℕ} {G : SimpleGraph ℕ} {q : Quotient} {adj : ℕ → List ℕ}

theorem sound_start (hlt : ∀ i j, G.Adj i j → i < n)
    (hadj : ∀ i < n, (adj i).Nodup ∧ ∀ v, v ∈ adj i ↔ G.Adj i v) : Sound n 0 G (start n adj) := by
  classical
  have hlive : ∀ i, (start n adj).Live n i ↔ i < n := fun i => and_iff_left rfl
  have hdegree : ∀ i < n, trueDegree G n i = (adj i).length := by
    intro i hi
    rw [← List.toFinset_card_of_nodup (hadj i hi).1, trueDegree]
    congr 1
    ext j
    rw [Finset.mem_filter, Finset.mem_range, List.mem_toFinset, (hadj i hi).2,
      and_iff_right_iff_imp]
    exact fun h => hlt j i h.symm
  constructor
  case represents =>
    exact {
      perm_nodup := List.nodup_nil
      perm_lt := fun p hp => absurd hp List.not_mem_nil
      perm_length := rfl
      alive_iff := fun i _ => ⟨fun _ => List.not_mem_nil, fun _ => rfl⟩
      adj_live := by
        intro i hi v hv
        have h := ((hadj i ((hlive i).mp hi)).2 v).mp hv
        exact ⟨(hlive v).mpr (hlt v i h.symm), h.ne.symm⟩
      adj_nodup := fun i hi => (hadj i ((hlive i).mp hi)).1
      elems_nodup := fun _ _ => List.nodup_nil
      elems_alive := fun _ _ e he => absurd he List.not_mem_nil
      elem_mem := fun _ _ _ he => absurd he Bool.false_ne_true
      elem_dead := fun _ he => absurd he Bool.false_ne_true
      vars_nodup := fun _ he => absurd he Bool.false_ne_true
      vars_lt := fun _ he => absurd he Bool.false_ne_true
      covered := fun _ _ _ _ _ he => absurd he List.not_mem_nil
      live_of_adj := fun i j h => (hlive i).mpr (hlt i j h)
      adj_iff := by
        intro i j hi _
        change G.Adj i j ↔ i ≠ j ∧ (j ∈ adj i ∨ ∃ e ∈ ([] : List ℕ), _)
        rw [(hadj i ((hlive i).mp hi)).2]
        constructor
        · exact fun h => ⟨h.ne, Or.inl h⟩
        · intro h
          cases h.2 with
          | inl h => exact h
          | inr h => exact absurd h.choose_spec.1 List.not_mem_nil
      marked_lt := fun _ _ h => absurd h (by simp [start])
      stamp_lt := fun _ _ h => absurd h (by simp [start]) }
  case queued =>
    have hmem : ∀ entry, entry ∈ (start n adj).heap ↔
        ∃ i, i < n ∧ toLex ((adj i).length, i) = entry := by
      intro entry
      simp [start, List.mem_insertionSort]
    constructor
    case sorted => exact List.pairwise_insertionSort _ _
    case entry_mem =>
      intro i hi
      exact (hmem _).mpr ⟨i, (hlive i).mp hi, rfl⟩
    case entry_lt =>
      intro entry hentry
      obtain ⟨i, hi, rfl⟩ := (hmem entry).mp hentry
      exact hi
  case graded =>
    constructor
    case le_degree =>
      intro i hi
      exact Nat.le_of_eq (hdegree i ((hlive i).mp hi))
    case exact_of_two =>
      intro i hi _
      exact (hdegree i ((hlive i).mp hi)).symm

theorem Represents.exists_live {H : SimpleGraph ℕ} (h : Represents n step H q) (hstep : step < n) :
    ∃ i, q.Live n i := by
  by_contra hnone
  have hsub : Finset.range n ⊆ q.perm.toFinset := by
    intro i hi
    rw [List.mem_toFinset]
    by_contra hperm
    have hin := Finset.mem_range.mp hi
    exact hnone ⟨i, hin, (h.alive_iff i hin).mpr hperm⟩
  have hcard := Finset.card_le_card hsub
  rw [Finset.card_range, List.toFinset_card_of_nodup h.perm_nodup, h.perm_length] at hcard
  omega

theorem Represents.perm_range {H : SimpleGraph ℕ} (h : Represents n n H q) :
    q.perm.Perm (List.range n) := by
  have hsub : q.perm ⊆ List.range n := by
    intro i hi
    exact List.mem_range.mpr (h.perm_lt i hi)
  apply (List.subperm_of_subset h.perm_nodup hsub).perm_of_length_le
  rw [List.length_range, h.perm_length]

theorem Sound.popLive (h : Sound n step G q) (hstep : step < n) :
    ∃ p rest, q.popLive q.heap = some (p, rest) ∧ q.Live n p ∧ rest.Sublist q.heap ∧
      ∀ entry ∈ q.heap, q.Current entry → toLex (q.degree p, p) ≤ entry ∧
        (entry ≠ toLex (q.degree p, p) → entry ∈ rest) := by
  obtain ⟨i, hi⟩ := h.represents.exists_live hstep
  obtain ⟨p, rest, hpop, halive, hentry, hsub, hleast⟩ := popLive_spec h.queued.sorted
    ⟨toLex (q.degree i, i), h.queued.entry_mem i hi, hi.2, rfl⟩
  exact ⟨p, rest, hpop, ⟨h.queued.entry_lt _ hentry, halive⟩, hsub, hleast⟩

/-- The next elimination stays within its vectors. -/
theorem Sound.inRange (h : Sound n step G q) (hp : q.Live n p) (heap : List (ℕ ×ₗ ℕ)) :
    q.InRange n p ((q.retire p heap).boundary p) := by
  have hlive : ∀ i ∈ p :: (q.retire p heap).boundary p, q.Live n i := by
    intro i hi
    obtain rfl | hi := List.mem_cons.mp hi
    · exact hp
    · exact ((h.represents.mem_boundary hp heap i).mp hi).1
  constructor
  case entry_lt => exact h.queued.entry_lt
  case pivot_lt => exact hp.1
  case boundary_lt => exact fun i hi => (hlive i (List.mem_cons_of_mem _ hi)).1
  case adj_lt => exact fun i hi v hv => (h.represents.adj_live i (hlive i hi) v hv).1.1
  case elems_lt =>
    intro i hi e he
    have halive := h.represents.elems_alive i (hlive i hi) e he
    exact h.represents.perm_lt e (h.represents.elem_dead e halive)
  case vars_lt =>
    intro i hi e he
    exact h.represents.vars_lt e (h.represents.elems_alive i (hlive i hi) e he)

/-- A step eliminates the least live variable of least recorded degree. -/
theorem Sound.next (h : Sound n step G q) (hstep : step < n) :
    ∃ p q', eliminateNext n q step = some q' ∧ Sound n (step + 1) G q' ∧
      q'.perm = q.perm ++ [p] ∧ q.Live n p ∧
      ∀ i, q.Live n i → toLex (q.degree p, p) ≤ toLex (q.degree i, i) := by
  obtain ⟨p, rest, hpop, hp, hsub, hleast⟩ := h.popLive hstep
  obtain ⟨lp, q', hnext, he, hnodup, hmem⟩ := h.represents.eliminateNext hpop hp
  have hgraph : eliminateAll G q'.perm = eliminate (eliminateAll G q.perm) p := by
    rw [he.perm, eliminateAll_concat]
  refine ⟨p, q', hnext, ?_, he.perm, hp, ?_⟩
  · constructor
    case represents =>
      rw [hgraph]
      exact h.represents.next hp he hnodup hmem
    case queued =>
      exact h.queued.next hsub (fun entry hentry hcur => (hleast entry hentry hcur).2) he
        fun v hv => ((hmem v).mp hv).1.1
    case graded =>
      rw [hgraph]
      exact h.graded.next h.represents hp he hnodup hmem
  · intro j hj
    exact (hleast _ (h.queued.entry_mem j hj) ⟨hj.2, rfl⟩).1

theorem sound_foldlM (hstart : Sound n 0 G (start n adj)) (hstep : step ≤ n) :
    ∃ q, (List.range step).foldlM (eliminateNext n) (start n adj) = some q ∧ Sound n step G q := by
  induction step with
  | zero => exact ⟨start n adj, rfl, hstart⟩
  | succ step ih =>
    obtain ⟨q, hq, hsound⟩ := ih (Nat.le_of_succ_le hstep)
    obtain ⟨p, q', hnext, hsound', -⟩ := hsound.next hstep
    refine ⟨q', ?_, hsound'⟩
    rw [List.range_succ, List.foldlM_append, hq]
    change (eliminateNext n q step >>= pure) = _
    rw [hnext, bind_pure]

end Run

end Quotient

namespace Csr.Canonical

variable {V : Type} {A : Csr V}

/-- Every prefix of the run succeeds and keeps what holds between two eliminations. -/
theorem amdRun_sound (hA : A.Canonical) (hsq : A.nrows = A.ncols) {step : ℕ}
    (hstep : step ≤ A.nrows) :
    ∃ q, amdRun A step = some q ∧ Quotient.Sound A.nrows step A.patternGraph q := by
  obtain ⟨adj, hadj, hmem⟩ := hA.adjacency_eq hsq
  have hlt : ∀ i j, A.patternGraph.Adj i j → i < A.nrows := by
    intro i j h
    cases h.2 with
    | inl h => exact (hA.lt_of_stored h).1
    | inr h => exact hsq ▸ (hA.lt_of_stored h).2
  obtain ⟨q, hq, hsound⟩ := Quotient.sound_foldlM (Quotient.sound_start hlt hmem) hstep
  refine ⟨q, ?_, hsound⟩
  simp only [amdRun, guard, if_pos hsq, hadj]
  exact hq

end Csr.Canonical

section Main

variable {V : Type} {A : Csr V}

def lopsided : Csr Unit := ⟨3, 3, [0, 2, 3, 4], [0, 1, 2, 1], [(), (), (), ()]⟩

/-- The ordering never fails on a canonical square matrix and is a permutation; every pivot is
popped from the heap, and its elimination uses no index beyond a vector. -/
theorem amdOrder_permutation (hA : A.Canonical) (hsq : A.nrows = A.ncols) :
    ∃ perm, amdOrder A = some perm ∧ perm.Perm (List.range A.nrows) ∧
      ∀ step < A.nrows, ∃ q p heap, amdRun A step = some q ∧
        q.popLive q.heap = some (p, heap) ∧
          q.InRange A.nrows p ((q.retire p heap).boundary p) := by
  obtain ⟨q, hq, hsound⟩ := hA.amdRun_sound hsq (Nat.le_refl _)
  refine ⟨q.perm, ?_, hsound.represents.perm_range, ?_⟩
  · rw [amdOrder, hq]
    rfl
  · intro step hstep
    obtain ⟨q, hq, hsound⟩ := hA.amdRun_sound hsq (Nat.le_of_lt hstep)
    obtain ⟨p, heap, hpop, hp, -⟩ := hsound.popLive hstep
    exact ⟨q, p, heap, hq, hpop, hsound.inRange hp heap⟩

theorem amdOrder_permutation_lopsided :
    ∃ perm, amdOrder lopsided = some perm ∧ perm.Perm (List.range 3) ∧
      ∀ step < 3, ∃ q p heap, amdRun lopsided step = some q ∧
        q.popLive q.heap = some (p, heap) ∧
          q.InRange 3 p ((q.retire p heap).boundary p) :=
  amdOrder_permutation (by decide) rfl

/-- After every number of eliminations two remaining variables are joined by the quotient
graph exactly when a path of the matrix joins them through eliminated variables. -/
theorem amdRun_through (hA : A.Canonical) (hsq : A.nrows = A.ncols) {step : ℕ}
    (hstep : step ≤ A.nrows) :
    ∃ q, amdRun A step = some q ∧ q.perm.length = step ∧ q.perm.Nodup ∧
      ∀ i j, i < A.nrows → j < A.nrows → i ∉ q.perm → j ∉ q.perm → i ≠ j →
        (Through A.patternGraph {v | v ∈ q.perm} i j ↔
          j ∈ q.adj i ∨ ∃ e ∈ q.elemsOf i, j ∈ q.elemVars e) := by
  obtain ⟨q, hq, hsound⟩ := hA.amdRun_sound hsq hstep
  have h := hsound.represents
  refine ⟨q, hq, h.perm_length, h.perm_nodup, ?_⟩
  intro i j hi hj hin hjn hij
  have hlive : ∀ k < A.nrows, k ∉ q.perm → q.Live A.nrows k :=
    fun k hk hkn => ⟨hk, (h.alive_iff k hk).mpr hkn⟩
  have hadj := h.adj_iff i j (hlive i hi hin) (hlive j hj hjn)
  rw [eliminateAll_adj] at hadj
  constructor
  · exact fun hthrough => (hadj.mp ⟨hij, hin, hjn, hthrough⟩).2
  · exact fun hquotient => (hadj.mpr ⟨hij, hquotient⟩).2.2.2

theorem amdRun_through_lopsided :
    ∃ q, amdRun lopsided 1 = some q ∧ q.perm.length = 1 ∧ q.perm.Nodup ∧
      ∀ i j, i < 3 → j < 3 → i ∉ q.perm → j ∉ q.perm → i ≠ j →
        (Through lopsided.patternGraph {v | v ∈ q.perm} i j ↔
          j ∈ q.adj i ∨ ∃ e ∈ q.elemsOf i, j ∈ q.elemVars e) :=
  amdRun_through (by decide) rfl (by decide)

/-- Every pivot is the first variable of least recorded degree. A recorded degree is at
least the degree in the elimination graph, and equal to it for a variable that touches two
elements at most. -/
theorem amdRun_least_degree (hA : A.Canonical) (hsq : A.nrows = A.ncols) {step : ℕ}
    (hstep : step < A.nrows) :
    ∃ p q q', amdRun A step = some q ∧ amdRun A (step + 1) = some q' ∧ q'.perm = q.perm ++ [p] ∧
      ∀ i < A.nrows, i ∉ q.perm →
        toLex (q.degree p, p) ≤ toLex (q.degree i, i) ∧
        trueDegree (eliminateAll A.patternGraph q.perm) A.nrows i ≤ q.degree i ∧
        ((q.elemsOf i).length ≤ 2 →
          q.degree i = trueDegree (eliminateAll A.patternGraph q.perm) A.nrows i) := by
  obtain ⟨q, hq, hsound⟩ := hA.amdRun_sound hsq (Nat.le_of_lt hstep)
  obtain ⟨p, q', hnext, -, hperm, -, hleast⟩ := hsound.next hstep
  refine ⟨p, q, q', hq, ?_, hperm, ?_⟩
  · simp only [amdRun, Option.bind_eq_bind, Option.bind_eq_some_iff] at hq ⊢
    obtain ⟨u, hu, adj, hadj, hrun⟩ := hq
    refine ⟨u, hu, adj, hadj, ?_⟩
    rw [List.range_succ, List.foldlM_append, hrun]
    change (Quotient.eliminateNext A.nrows q step >>= pure) = _
    rw [hnext, bind_pure]
  · intro i hi hin
    have hlive : q.Live A.nrows i := ⟨hi, (hsound.represents.alive_iff i hi).mpr hin⟩
    exact ⟨hleast i hlive, hsound.graded.le_degree i hlive, hsound.graded.exact_of_two i hlive⟩

/-- A ring of six whose first two variables are not neighbours. -/
def hexagon : Csr Unit :=
  ⟨6, 6, [0, 2, 4, 6, 8, 10, 12], [2, 3, 2, 4, 0, 1, 0, 5, 1, 5, 3, 4], List.replicate 12 ()⟩

/-- The third pivot of the ring, where a variable touches two elements. -/
theorem amdRun_least_degree_hexagon :
    (amdRun hexagon 2).map (fun q => q.elemsOf 2) = some [0, 1] ∧
    ∃ p q q', amdRun hexagon 2 = some q ∧ amdRun hexagon 3 = some q' ∧
      q'.perm = q.perm ++ [p] ∧ ∀ i < 6, i ∉ q.perm →
        toLex (q.degree p, p) ≤ toLex (q.degree i, i) ∧
        trueDegree (eliminateAll hexagon.patternGraph q.perm) 6 i ≤ q.degree i ∧
        ((q.elemsOf i).length ≤ 2 →
          q.degree i = trueDegree (eliminateAll hexagon.patternGraph q.perm) 6 i) :=
  ⟨by decide +kernel, amdRun_least_degree (by decide) rfl (by decide)⟩

end Main

end FrankenSim.Sparse
