import FrankenSim.Sparse.Passes

/-!
# The quotient graph

Between two eliminations the live variables with their neighbour lists and elements
represent the elimination graph: two of them are adjacent when one lists the other or
an element of one joins it to the other. The counters of a step never go below zero,
because an element is visited once from each of its variables in the boundary.
-/
namespace FrankenSim.Sparse

open Library

namespace Quotient

def Live (q : Quotient) (n i : ℕ) : Prop := i < n ∧ q.varAlive i = true

/-- An entry of the heap that belongs to a live variable and tells its degree. -/
def Current (q : Quotient) (entry : ℕ ×ₗ ℕ) : Prop :=
  q.varAlive (ofLex entry).2 = true ∧ q.degree (ofLex entry).2 = (ofLex entry).1

/-- The state represents the elimination graph `H` after `step` eliminations. -/
structure Represents (n step : ℕ) (H : SimpleGraph ℕ) (q : Quotient) : Prop where
  perm_nodup : q.perm.Nodup
  perm_lt : ∀ p ∈ q.perm, p < n
  perm_length : q.perm.length = step
  alive_iff : ∀ i < n, q.varAlive i = true ↔ i ∉ q.perm
  adj_live : ∀ i, q.Live n i → ∀ v ∈ q.adj i, q.Live n v ∧ v ≠ i
  adj_nodup : ∀ i, q.Live n i → (q.adj i).Nodup
  elems_nodup : ∀ i, q.Live n i → (q.elemsOf i).Nodup
  elems_alive : ∀ i, q.Live n i → ∀ e ∈ q.elemsOf i, q.elemAlive e = true
  elem_mem : ∀ i e, q.Live n i → q.elemAlive e = true → (i ∈ q.elemVars e ↔ e ∈ q.elemsOf i)
  elem_dead : ∀ e, q.elemAlive e = true → e ∈ q.perm
  vars_nodup : ∀ e, q.elemAlive e = true → (q.elemVars e).Nodup
  vars_lt : ∀ e, q.elemAlive e = true → ∀ v ∈ q.elemVars e, v < n
  covered : ∀ i e v, q.Live n i → v ∈ q.adj i → e ∈ q.elemsOf i → v ∉ q.elemVars e
  live_of_adj : ∀ i j, H.Adj i j → q.Live n i
  adj_iff : ∀ i j, q.Live n i → q.Live n j →
    (H.Adj i j ↔ i ≠ j ∧ (j ∈ q.adj i ∨ ∃ e ∈ q.elemsOf i, j ∈ q.elemVars e))
  marked_lt : ∀ v s, q.marked v = some s → s < step
  stamp_lt : ∀ e s, q.wStamp e = some s → s < step

/-- The heap is in order and has the current entry of every live variable. -/
structure Queued (n : ℕ) (q : Quotient) : Prop where
  sorted : q.heap.Pairwise (· ≤ ·)
  entry_mem : ∀ i, q.Live n i → toLex (q.degree i, i) ∈ q.heap
  entry_lt : ∀ entry ∈ q.heap, (ofLex entry).2 < n

/-- The indices that the elimination of a pivot uses are below the order. -/
structure InRange (n : ℕ) (q : Quotient) (p : ℕ) (lp : List ℕ) : Prop where
  entry_lt : ∀ entry ∈ q.heap, (ofLex entry).2 < n
  pivot_lt : p < n
  boundary_lt : ∀ i ∈ lp, i < n
  adj_lt : ∀ i ∈ p :: lp, ∀ v ∈ q.adj i, v < n
  elems_lt : ∀ i ∈ p :: lp, ∀ e ∈ q.elemsOf i, e < n
  vars_lt : ∀ i ∈ p :: lp, ∀ e ∈ q.elemsOf i, ∀ v ∈ q.elemVars e, v < n

def outside (q : Quotient) (lp : List ℕ) (e : ℕ) : ℕ :=
  (q.elemVars e).countP fun v => q.varAlive v && decide (v ∉ lp)

section Pop

variable {q : Quotient} {n : ℕ} {heap : List (ℕ ×ₗ ℕ)}

/-- Where an entry is current, the least current entry is popped. -/
theorem popLive_spec (hsorted : heap.Pairwise (· ≤ ·)) (hmem : ∃ entry ∈ heap, q.Current entry) :
    ∃ p rest, q.popLive heap = some (p, rest) ∧ q.varAlive p = true ∧
      toLex (q.degree p, p) ∈ heap ∧ rest.Sublist heap ∧
      ∀ entry ∈ heap, q.Current entry → toLex (q.degree p, p) ≤ entry ∧
        (entry ≠ toLex (q.degree p, p) → entry ∈ rest) := by
  induction heap with
  | nil => exact absurd hmem (by simp)
  | cons first heap ih =>
    obtain ⟨hfirst, hsorted⟩ := List.pairwise_cons.mp hsorted
    rw [popLive]
    by_cases hcurrent : q.Current first
    · have hdegree : toLex (q.degree (ofLex first).2, (ofLex first).2) = first := by
        rw [hcurrent.2]
        rfl
      refine ⟨(ofLex first).2, heap, ?_, hcurrent.1, ?_, List.sublist_cons_self _ _, ?_⟩
      · rw [if_pos]
        simp [hcurrent.1, hcurrent.2]
      · rw [hdegree]
        exact List.mem_cons_self
      · rw [hdegree]
        intro entry hentry _
        obtain rfl | hentry := List.mem_cons.mp hentry
        · exact ⟨le_refl _, fun h => absurd rfl h⟩
        · exact ⟨hfirst entry hentry, fun _ => hentry⟩
    · have hmem : ∃ entry ∈ heap, q.Current entry := by
        obtain ⟨entry, hentry, hcur⟩ := hmem
        obtain rfl | hentry := List.mem_cons.mp hentry
        · exact absurd hcur hcurrent
        · exact ⟨entry, hentry, hcur⟩
      obtain ⟨p, rest, hpop, halive, hp, hsub, hleast⟩ := ih hsorted hmem
      refine ⟨p, rest, ?_, halive, List.mem_cons_of_mem _ hp, hsub.cons _, ?_⟩
      · rw [if_neg, hpop]
        simpa [Current] using hcurrent
      · intro entry hentry hcur
        obtain rfl | hentry := List.mem_cons.mp hentry
        · exact absurd hcur hcurrent
        · exact hleast entry hentry hcur

end Pop

section Boundary

variable {q : Quotient} {n step p : ℕ} {H : SimpleGraph ℕ}

theorem Represents.mem_boundary (h : Represents n step H q) (hp : q.Live n p)
    (heap : List (ℕ ×ₗ ℕ)) (v : ℕ) :
    v ∈ (q.retire p heap).boundary p ↔ q.Live n v ∧ v ≠ p ∧ H.Adj p v := by
  have halive : (q.retire p heap).varAlive v = true ↔ v ≠ p ∧ q.varAlive v = true := by
    by_cases hv : v = p
    · subst hv
      simp [retire]
    · simp [retire, hv]
  rw [boundary, mem_sortDedup, List.mem_append, List.mem_filter, List.mem_flatMap]
  simp only [List.mem_filter, Bool.and_eq_true, bne_iff_ne, halive]
  constructor
  · intro hv
    cases hv with
    | inl hv =>
      have hlive := (h.adj_live p hp v hv.1).1
      exact ⟨hlive, hv.2.1, (h.adj_iff p v hp hlive).mpr ⟨hv.2.1.symm, Or.inl hv.1⟩⟩
    | inr hv =>
      obtain ⟨e, he, hv, hne⟩ := hv
      have hlive : q.Live n v := ⟨h.vars_lt e he.2 v hv, hne.1.2⟩
      exact ⟨hlive, hne.2, (h.adj_iff p v hp hlive).mpr ⟨hne.2.symm, Or.inr ⟨e, he.1, hv⟩⟩⟩
  · intro hv
    obtain ⟨hlive, hne, hadj⟩ := hv
    obtain ⟨-, hadj⟩ := (h.adj_iff p v hp hlive).mp hadj
    cases hadj with
    | inl hadj => exact Or.inl ⟨hadj, hne, hlive.2⟩
    | inr hadj =>
      obtain ⟨e, he, hv⟩ := hadj
      exact Or.inr ⟨e, ⟨he, h.elems_alive p hp e he⟩, hv, ⟨hne, hlive.2⟩, hne⟩

theorem count_flatMap_of_nodup {is : List ℕ} {f : ℕ → List ℕ} {e : ℕ}
    (h : ∀ i ∈ is, (f i).Nodup) : (is.flatMap f).count e = is.countP fun i => decide (e ∈ f i) := by
  induction is with
  | nil => rfl
  | cons i is ih =>
    have hone : (f i).count e = if e ∈ f i then 1 else 0 := (h i List.mem_cons_self).count
    rw [List.flatMap_cons, List.count_append, ih fun i hi => h i (List.mem_cons_of_mem _ hi), hone,
      List.countP_cons]
    by_cases hi : e ∈ f i
    · simp [hi, Nat.add_comm]
    · simp [hi]

/-- An element is visited once from each of its variables in the boundary. -/
theorem Represents.count_touched (h : Represents n step H q) {lp : List ℕ} (hnodup : lp.Nodup)
    (hlive : ∀ v ∈ lp, q.Live n v) {e : ℕ} (he : q.elemAlive e = true) :
    (q.touched lp).count e = (q.elemVars e).countP fun v => decide (v ∈ lp) := by
  have hvisits : (q.touched lp).count e = lp.countP fun i => decide (e ∈ q.elemsOf i) :=
    count_flatMap_of_nodup fun i hi => h.elems_nodup i (hlive i hi)
  have hperm : (lp.filter fun i => decide (e ∈ q.elemsOf i)).Perm
      ((q.elemVars e).filter fun v => decide (v ∈ lp)) := by
    apply (List.perm_ext_iff_of_nodup (hnodup.filter _) ((h.vars_nodup e he).filter _)).mpr
    intro v
    simp only [List.mem_filter, decide_eq_true_eq]
    constructor
    · exact fun hv => ⟨(h.elem_mem v e (hlive v hv.1) he).mpr hv.2, hv.1⟩
    · exact fun hv => ⟨hv.2, (h.elem_mem v e (hlive v hv.2) he).mp hv.1⟩
  rw [hvisits, List.countP_eq_length_filter, List.countP_eq_length_filter, hperm.length_eq]

end Boundary

/-- What the elimination of `p` with boundary `lp` does to a state, the heap being `rest`
after the pivot was popped. -/
structure Eliminated (n step p : ℕ) (lp : List ℕ) (rest : List (ℕ ×ₗ ℕ)) (q q' : Quotient) :
    Prop where
  perm : q'.perm = q.perm ++ [p]
  varAlive : ∀ i, q'.varAlive i = true ↔ i ≠ p ∧ q.varAlive i = true
  adj : ∀ i, q'.adj i =
    if i ∈ lp then (q.adj i).filter fun v => q'.varAlive v && decide (v ∉ lp) else q.adj i
  elemsOf : ∀ i ≠ p, q'.elemsOf i =
    if i ∈ lp then ((q.elemsOf i).filter fun e => q'.elemAlive e) ++ [p] else q.elemsOf i
  elemVars : ∀ e, q'.elemVars e = if e = p then lp else q.elemVars e
  elemAlive : ∀ e, q'.elemAlive e = true ↔ e = p ∨ q.elemAlive e = true ∧ e ∉ q.elemsOf p ∧
    (e ∈ q.touched lp → q'.outside lp e ≠ 0)
  marked : ∀ v s, q'.marked v = some s → q.marked v = some s ∨ s = step
  wStamp : ∀ e s, q'.wStamp e = some s → q.wStamp e = some s ∨ s = step
  degree : ∀ i, q'.degree i =
    if i ∈ lp then
      min ((q'.adj i).length + (lp.length - 1) +
        (((q.elemsOf i).filter fun e => q'.elemAlive e).map (q'.outside lp)).sum) (n - step - 1)
    else q.degree i
  heap : q'.heap =
    lp.foldl (fun heap i => heap.orderedInsert (· ≤ ·) (toLex (q'.degree i, i))) rest

section Elimination

variable {q : Quotient} {n step p : ℕ} {H : SimpleGraph ℕ} {rest : List (ℕ ×ₗ ℕ)}

theorem Represents.not_mem_elemsOf (h : Represents n step H q) (hp : q.Live n p) {i : ℕ}
    (hi : q.Live n i) : p ∉ q.elemsOf i := by
  intro hmem
  exact (h.alive_iff p hp.1).mp hp.2 (h.elem_dead p (h.elems_alive i hi p hmem))

/-- The visits and the variables outside the boundary make up the live variables. -/
theorem Represents.liveCount_eq (h : Represents n step H q) {lp : List ℕ} (hnodup : lp.Nodup)
    (hlive : ∀ v ∈ lp, q.Live n v ∧ v ≠ p) {e : ℕ} (he : q.elemAlive e = true) :
    (q.retire p rest).liveCount e =
      (q.touched lp).count e + (q.retire p rest).outside lp e := by
  rw [h.count_touched hnodup (fun v hv => (hlive v hv).1) he, liveCount, outside,
    List.countP_eq_countP_filter_add _ _ fun v => decide (v ∈ lp), List.countP_filter,
    List.countP_filter]
  congr 1
  · apply List.countP_congr
    intro v hv
    simp only [Bool.and_eq_true, decide_eq_true_eq, and_iff_right_iff_imp]
    intro hmem
    simp [retire, Function.update_of_ne (hlive v hmem).2, (hlive v hmem).1.2]
  · apply List.countP_congr
    intro v _
    simp

def passed (n step p : ℕ) (lp : List ℕ) (r : Quotient) : Quotient :=
  ((((r.absorbPivot step p lp).counted step (r.touched lp)).absorbed step (r.touched lp)).refreshed
    n step p lp lp).becomeElement p lp

theorem eliminateNext_eq {lp : List ℕ} (hpop : q.popLive q.heap = some (p, rest))
    (hlp : (q.retire p rest).boundary p = lp) (hnodup : lp.Nodup)
    (hstamp : ∀ e, q.wStamp e ≠ some step)
    (hcount : ∀ e, q.elemAlive e = true →
      (q.touched lp).count e ≤ (q.retire p rest).liveCount e) :
    Quotient.eliminateNext n q step = some ((q.retire p rest).passed n step p lp) := by
  have hcounted : ((q.retire p rest).touched lp).foldlM (visitElement step)
      ((q.retire p rest).absorbPivot step p lp) =
      some (((q.retire p rest).absorbPivot step p lp).counted step ((q.retire p rest).touched lp)) := by
    apply foldlM_visitElement _
    · exact hstamp
    intro e he
    apply hcount e
    simp only [absorbPivot, foldl_put] at he
    exact (ite_eq_iff'.mp he).2 (by simp_all)
  rw [Quotient.eliminateNext, hpop, Option.bind_eq_bind, Option.bind_some]
  dsimp only
  rw [hlp]
  change ((q.retire p rest).touched lp).foldlM (visitElement step)
    ((q.retire p rest).absorbPivot step p lp) >>= _ = _
  rw [hcounted, Option.bind_eq_bind, Option.bind_some]
  change some ((lp.foldl (refresh n step p lp) (((q.retire p rest).touched lp).foldl
    (absorbElement step) _)).becomeElement p lp) = _
  rw [foldl_absorbElement, foldl_refresh _ hnodup]
  rfl

theorem absorbPivot_elemAlive {lp : List ℕ} (r : Quotient) (e : ℕ) :
    (r.absorbPivot step p lp).elemAlive e =
      if e ∈ r.elemsOf p then false else r.elemAlive e := by
  rw [absorbPivot, foldl_put]

theorem absorbPivot_marked {lp : List ℕ} (r : Quotient) (v : ℕ) :
    (r.absorbPivot step p lp).marked v = if v ∈ lp then some step else r.marked v :=
  congrFun (foldl_put r.marked lp (some step)) v

section Passed

variable {lp : List ℕ} {r : Quotient}

theorem counted_absorbPivot (step : ℕ) {e : ℕ} (halive : r.elemAlive e = true) (hmem : e ∉ r.elemsOf p)
    (htouched : e ∈ r.touched lp)
    (hcount : r.liveCount e = (r.touched lp).count e + r.outside lp e) :
    ((r.absorbPivot step p lp).counted step (r.touched lp)).wStamp e = some step ∧
      ((r.absorbPivot step p lp).counted step (r.touched lp)).wVal e = r.outside lp e := by
  have hvisited : e ∈ r.touched lp ∧ (r.absorbPivot step p lp).elemAlive e = true := by
    rw [absorbPivot_elemAlive, if_neg hmem]
    exact ⟨htouched, halive⟩
  have hleft : r.liveCount e - (r.touched lp).count e = r.outside lp e := by omega
  exact ⟨if_pos hvisited, (if_pos hvisited).trans hleft⟩

theorem passed_elemAlive
    (hcount : ∀ e, r.elemAlive e = true → r.liveCount e = (r.touched lp).count e + r.outside lp e)
    (e : ℕ) : (r.passed n step p lp).elemAlive e = true ↔
      e = p ∨ r.elemAlive e = true ∧ e ∉ r.elemsOf p ∧ (e ∈ r.touched lp → r.outside lp e ≠ 0) := by
  by_cases hep : e = p
  · subst hep
    simp [passed, becomeElement]
  have hvalue : (r.passed n step p lp).elemAlive e = ((r.absorbPivot step p lp).elemAlive e &&
      !decide (e ∈ r.touched lp ∧
        ((r.absorbPivot step p lp).counted step (r.touched lp)).wStamp e = some step ∧
        ((r.absorbPivot step p lp).counted step (r.touched lp)).wVal e = 0)) :=
    Function.update_of_ne hep _ _
  rw [hvalue, absorbPivot_elemAlive]
  by_cases hmem : e ∈ r.elemsOf p
  · simp [hep, hmem]
  by_cases halive : r.elemAlive e = true
  · by_cases htouched : e ∈ r.touched lp
    · obtain ⟨hstamp, hval⟩ :=
        counted_absorbPivot step halive hmem htouched (hcount e halive)
      simp [hep, hmem, halive, htouched, hstamp, hval]
    · simp [hep, hmem, halive, htouched]
  · simp [hep, hmem, halive]

theorem passed_adj (hmarked : ∀ v, r.marked v ≠ some step) (i : ℕ) :
    (r.passed n step p lp).adj i =
      if i ∈ lp then (r.adj i).filter fun v => r.varAlive v && decide (v ∉ lp) else r.adj i := by
  change (if i ∈ lp then (r.adj i).filter fun v =>
    r.varAlive v && (r.absorbPivot step p lp).marked v != some step else r.adj i) = _
  congr 1
  apply List.filter_congr
  intro v _
  rw [absorbPivot_marked]
  by_cases hv : v ∈ lp
  · simp [hv]
  · simp [hv, hmarked v]

theorem passed_elemsOf {i : ℕ} (hip : i ≠ p) (hp : i ∈ lp → p ∉ r.elemsOf i) :
    (r.passed n step p lp).elemsOf i =
      if i ∈ lp then ((r.elemsOf i).filter fun e => (r.passed n step p lp).elemAlive e) ++ [p]
      else r.elemsOf i := by
  have hvalue : (r.passed n step p lp).elemsOf i = if i ∈ lp then
      (((r.absorbPivot step p lp).counted step (r.touched lp)).absorbed step
        (r.touched lp)).prunedElems p i else r.elemsOf i :=
    Function.update_of_ne hip _ _
  rw [hvalue, prunedElems]
  split_ifs with hi
  · congr 1
    apply List.filter_congr
    intro e he
    have hep : e ≠ p := fun h => hp hi (h ▸ he)
    exact (Function.update_of_ne hep _ _).symm
  · rfl

theorem passed_outside {e : ℕ} (hep : e ≠ p) :
    (r.passed n step p lp).outside lp e = r.outside lp e := by
  have hvars : (r.passed n step p lp).elemVars e = r.elemVars e := Function.update_of_ne hep _ _
  rw [outside, outside, hvars]
  rfl

theorem passed_degree {i : ℕ} (hi : i ∈ lp) (hp : p ∉ r.elemsOf i)
    (hcount : ∀ e, r.elemAlive e = true → r.liveCount e = (r.touched lp).count e + r.outside lp e) :
    (r.passed n step p lp).degree i = min (((r.passed n step p lp).adj i).length + (lp.length - 1) +
      (((r.elemsOf i).filter fun e => (r.passed n step p lp).elemAlive e).map
        (r.outside lp)).sum) (n - step - 1) := by
  generalize hstate : ((r.absorbPivot step p lp).counted step (r.touched lp)).absorbed step
    (r.touched lp) = b
  have hvalue : (r.passed n step p lp).degree i = b.approximateDegree n step p lp i := by
    subst hstate
    exact if_pos hi
  have hadj : (r.passed n step p lp).adj i = b.prunedAdj step i := by
    subst hstate
    exact if_pos hi
  have helems : b.prunedElems p i =
      ((r.elemsOf i).filter fun e => (r.passed n step p lp).elemAlive e) ++ [p] := by
    subst hstate
    rw [prunedElems]
    congr 1
    apply List.filter_congr
    intro e he
    have hep : e ≠ p := fun h => hp (h ▸ he)
    exact (Function.update_of_ne hep _ _).symm
  have hvisited : ∀ e ∈ (r.elemsOf i).filter fun e => (r.passed n step p lp).elemAlive e,
      e ≠ p ∧ b.wStamp e = some step ∧ b.wVal e = r.outside lp e := by
    intro e he
    obtain ⟨hmem, halive⟩ := List.mem_filter.mp he
    have hep : e ≠ p := fun h => hp (h ▸ hmem)
    obtain heq | halive := (passed_elemAlive hcount e).mp halive
    · exact absurd heq hep
    subst hstate
    exact ⟨hep, counted_absorbPivot step halive.1 halive.2.1
      (List.mem_flatMap.mpr ⟨i, hi, hmem⟩) (hcount e halive.1)⟩
  rw [hvalue, hadj, approximateDegree, foldl_addOutside, helems, List.filter_append,
    List.filter_eq_self.mpr fun e he => by
      simpa using ⟨(hvisited e he).1, (hvisited e he).2.1⟩]
  have hpivot : [p].filter (fun e => decide (e ≠ p ∧ b.wStamp e = some step)) = [] := by simp
  rw [hpivot, List.append_nil, List.map_congr_left fun e he => (hvisited e he).2.2]

end Passed

theorem Represents.eliminateNext (h : Represents n step H q)
    (hpop : q.popLive q.heap = some (p, rest)) (hp : q.Live n p) :
    ∃ lp q', Quotient.eliminateNext n q step = some q' ∧ Eliminated n step p lp rest q q' ∧
      lp.Nodup ∧ ∀ v, v ∈ lp ↔ q.Live n v ∧ v ≠ p ∧ H.Adj p v := by
  generalize hlp : (q.retire p rest).boundary p = lp
  have hmem : ∀ v, v ∈ lp ↔ q.Live n v ∧ v ≠ p ∧ H.Adj p v := by
    subst hlp
    exact h.mem_boundary hp rest
  have hnodup : lp.Nodup := hlp ▸ nodup_sortDedup _
  have hlive : ∀ v ∈ lp, q.Live n v ∧ v ≠ p := by
    exact fun v hv => ⟨((hmem v).mp hv).1, ((hmem v).mp hv).2.1⟩
  have hcount : ∀ e, q.elemAlive e = true → (q.retire p rest).liveCount e =
      (q.touched lp).count e + (q.retire p rest).outside lp e := by
    exact fun e he => h.liveCount_eq hnodup hlive he
  have hstamp : ∀ e, q.wStamp e ≠ some step := fun e he => Nat.lt_irrefl _ (h.stamp_lt e step he)
  have hmarked : ∀ v, q.marked v ≠ some step := fun v hv => Nat.lt_irrefl _ (h.marked_lt v step hv)
  have halive : ∀ i, (q.retire p rest).varAlive i = true ↔ i ≠ p ∧ q.varAlive i = true := by
    intro i
    by_cases hi : i = p
    · subst hi
      simp [retire]
    · simp [retire, hi]
  have hpivot : ∀ i ∈ lp, p ∉ q.elemsOf i := fun i hi => h.not_mem_elemsOf hp (hlive i hi).1
  refine ⟨lp, (q.retire p rest).passed n step p lp, ?_, ?_, hnodup, hmem⟩
  · apply eliminateNext_eq hpop hlp hnodup hstamp
    intro e he
    rw [hcount e he]
    exact Nat.le_add_right _ _
  · exact {
      perm := rfl
      varAlive := halive
      adj := passed_adj hmarked
      elemsOf := fun i hi => passed_elemsOf hi (hpivot i)
      elemVars := fun e => Function.update_apply _ _ _ _
      elemAlive := by
        intro e
        rw [passed_elemAlive hcount]
        by_cases hep : e = p
        · simp [hep]
        · rw [passed_outside hep]
          rfl
      marked := by
        intro v s hs
        change ((q.retire p rest).absorbPivot step p lp).marked v = some s at hs
        rw [absorbPivot_marked] at hs
        split_ifs at hs
        · exact Or.inr (Option.some.inj hs).symm
        · exact Or.inl hs
      wStamp := by
        intro e s hs
        change (if _ then some step else q.wStamp e) = some s at hs
        split_ifs at hs
        · exact Or.inr (Option.some.inj hs).symm
        · exact Or.inl hs
      degree := by
        intro i
        split_ifs with hi
        · rw [passed_degree (r := q.retire p rest) hi (hpivot i hi) hcount]
          congr 3
          apply List.map_congr_left
          intro e he
          have hep : e ≠ p := fun h => hpivot i hi (h ▸ (List.mem_filter.mp he).1)
          exact (passed_outside hep).symm
        · exact if_neg hi
      heap := by
        apply List.foldl_ext
        intro heap i hi
        rw [show ((q.retire p rest).passed n step p lp).degree i = _ from if_pos hi] }

end Elimination

section Preservation

variable {q q' : Quotient} {n step p : ℕ} {H : SimpleGraph ℕ} {lp : List ℕ}
  {rest : List (ℕ ×ₗ ℕ)}

theorem Eliminated.live_iff (he : Eliminated n step p lp rest q q') (i : ℕ) :
    q'.Live n i ↔ q.Live n i ∧ i ≠ p := by
  rw [Live, Live, he.varAlive]
  tauto

theorem Represents.mem_of_absorbed (h : Represents n step H q) (hp : q.Live n p)
    (he : Eliminated n step p lp rest q q')
    (hmem : ∀ v, v ∈ lp ↔ q.Live n v ∧ v ≠ p ∧ H.Adj p v) {e : ℕ} (halive : q.elemAlive e = true)
    (hdead : q'.elemAlive e ≠ true) {v : ℕ} (hv : q'.Live n v) (hmember : v ∈ q.elemVars e) :
    v ∈ lp := by
  obtain ⟨hlive, hvp⟩ := (he.live_iff v).mp hv
  have hep : e ≠ p := by
    intro heq
    exact hdead ((he.elemAlive e).mpr (Or.inl heq))
  by_cases hpivot : e ∈ q.elemsOf p
  · apply (hmem v).mpr
    exact ⟨hlive, hvp, (h.adj_iff p v hp hlive).mpr ⟨hvp.symm, Or.inr ⟨e, hpivot, hmember⟩⟩⟩
  · have habsorbed : ¬ (e ∈ q.touched lp → q'.outside lp e ≠ 0) := by
      intro hsurvives
      exact hdead ((he.elemAlive e).mpr (Or.inr ⟨halive, hpivot, hsurvives⟩))
    have hzero : q'.outside lp e = 0 := by
      by_contra hne
      exact habsorbed fun _ => hne
    rw [outside, List.countP_eq_zero, he.elemVars, if_neg hep] at hzero
    by_contra hout
    apply hzero v hmember
    simp [hv.2, hout]

theorem Represents.mem_elemsOf_iff (h : Represents n step H q) (hp : q.Live n p)
    (he : Eliminated n step p lp rest q q')
    (hmem : ∀ v, v ∈ lp ↔ q.Live n v ∧ v ≠ p ∧ H.Adj p v) {i : ℕ} (hi : q'.Live n i) (e : ℕ) :
    e ∈ q'.elemsOf i ↔ e = p ∧ i ∈ lp ∨ e ∈ q.elemsOf i ∧ q'.elemAlive e = true := by
  obtain ⟨hlive, hip⟩ := (he.live_iff i).mp hi
  rw [he.elemsOf i hip]
  split_ifs with hin
  · simp [hin, or_comm]
  · constructor
    · intro hmember
      have halive := h.elems_alive i hlive e hmember
      refine Or.inr ⟨hmember, ?_⟩
      by_contra hdead
      exact hin (h.mem_of_absorbed hp he hmem halive hdead hi
        ((h.elem_mem i e hlive halive).mpr hmember))
    · intro hor
      cases hor with
      | inl hor => exact absurd hor.2 hin
      | inr hor => exact hor.1

theorem Eliminated.mem_adj_iff (he : Eliminated n step p lp rest q q') {i v : ℕ}
    (hv : v ∈ q.adj i → i ∉ lp → q'.varAlive v = true) :
    v ∈ q'.adj i ↔ v ∈ q.adj i ∧ q'.varAlive v = true ∧ (i ∈ lp → v ∉ lp) := by
  rw [he.adj]
  split_ifs with hin
  · simp [hin]
  · constructor
    · exact fun hmem => ⟨hmem, hv hmem hin, fun h => absurd h hin⟩
    · exact And.left

/-- Outside the boundary no neighbour is lost: the pivot was none. -/
theorem Represents.alive_of_mem_adj (h : Represents n step H q) (hp : q.Live n p)
    (he : Eliminated n step p lp rest q q')
    (hmem : ∀ v, v ∈ lp ↔ q.Live n v ∧ v ≠ p ∧ H.Adj p v) {i v : ℕ} (hi : q'.Live n i)
    (hv : v ∈ q.adj i) (hin : i ∉ lp) : q'.varAlive v = true := by
  obtain ⟨hlive, hip⟩ := (he.live_iff i).mp hi
  refine (he.varAlive v).mpr ⟨?_, (h.adj_live i hlive v hv).1.2⟩
  intro hvp
  subst hvp
  have hadj := (h.adj_iff i v hlive hp).mpr ⟨hip, Or.inl hv⟩
  exact hin ((hmem i).mpr ⟨hlive, hip, hadj.symm⟩)

/-- Two variables of the boundary are joined by the new element, any other pair as before. -/
theorem Represents.adj_iff_next (h : Represents n step H q) (hp : q.Live n p)
    (he : Eliminated n step p lp rest q q')
    (hmem : ∀ v, v ∈ lp ↔ q.Live n v ∧ v ≠ p ∧ H.Adj p v) {i j : ℕ} (hi : q'.Live n i)
    (hj : q'.Live n j) : (eliminate H p).Adj i j ↔
      i ≠ j ∧ (j ∈ q'.adj i ∨ ∃ e ∈ q'.elemsOf i, j ∈ q'.elemVars e) := by
  obtain ⟨hlive, hip⟩ := (he.live_iff i).mp hi
  obtain ⟨hlive', hjp⟩ := (he.live_iff j).mp hj
  have hilp : H.Adj i p ↔ i ∈ lp := by
    rw [hmem, SimpleGraph.adj_comm]
    tauto
  have hjlp : H.Adj p j ↔ j ∈ lp := by
    rw [hmem]
    tauto
  rw [eliminate_adj, hilp, hjlp, h.adj_iff i j hlive hlive',
    he.mem_adj_iff (h.alive_of_mem_adj hp he hmem hi)]
  constructor
  · intro hadj
    obtain ⟨hij, -, -, hadj⟩ := hadj
    refine ⟨hij, ?_⟩
    by_cases hboth : i ∈ lp ∧ j ∈ lp
    · refine Or.inr ⟨p, (h.mem_elemsOf_iff hp he hmem hi p).mpr (Or.inl ⟨rfl, hboth.1⟩), ?_⟩
      rw [he.elemVars, if_pos rfl]
      exact hboth.2
    · have hadj : j ∈ q.adj i ∨ ∃ e ∈ q.elemsOf i, j ∈ q.elemVars e := by
        cases hadj with
        | inl hadj => exact hadj.2
        | inr hadj => exact absurd hadj hboth
      cases hadj with
      | inl hadj => exact Or.inl ⟨hadj, hj.2, fun hin hjn => hboth ⟨hin, hjn⟩⟩
      | inr hadj =>
        obtain ⟨e, hmember, hvar⟩ := hadj
        have halive := h.elems_alive i hlive e hmember
        have hep : e ≠ p := fun heq => h.not_mem_elemsOf hp hlive (heq ▸ hmember)
        refine Or.inr ⟨e, (h.mem_elemsOf_iff hp he hmem hi e).mpr (Or.inr ⟨hmember, ?_⟩), ?_⟩
        · by_contra hdead
          exact hboth ⟨h.mem_of_absorbed hp he hmem halive hdead hi
            ((h.elem_mem i e hlive halive).mpr hmember),
            h.mem_of_absorbed hp he hmem halive hdead hj hvar⟩
        · rw [he.elemVars, if_neg hep]
          exact hvar
  · intro hadj
    obtain ⟨hij, hadj⟩ := hadj
    refine ⟨hij, hip, hjp, ?_⟩
    cases hadj with
    | inl hadj => exact Or.inl ⟨hij, Or.inl hadj.1⟩
    | inr hadj =>
      obtain ⟨e, hmember, hvar⟩ := hadj
      rw [he.elemVars] at hvar
      cases (h.mem_elemsOf_iff hp he hmem hi e).mp hmember with
      | inl hnew =>
        rw [if_pos hnew.1] at hvar
        exact Or.inr ⟨hnew.2, hvar⟩
      | inr hold =>
        have hep : e ≠ p := fun heq => h.not_mem_elemsOf hp hlive (heq ▸ hold.1)
        rw [if_neg hep] at hvar
        exact Or.inl ⟨hij, Or.inr ⟨e, hold.1, hvar⟩⟩

theorem Represents.perm_next (h : Represents n step H q) (hp : q.Live n p)
    (he : Eliminated n step p lp rest q q') :
    q'.perm.Nodup ∧ (∀ i ∈ q'.perm, i < n) ∧ q'.perm.length = step + 1 := by
  have hpnot : p ∉ q.perm := (h.alive_iff p hp.1).mp hp.2
  rw [he.perm]
  refine ⟨List.nodup_append.mpr ⟨h.perm_nodup, List.nodup_singleton p, ?_⟩, ?_, ?_⟩
  · intro a ha b hb hab
    rw [List.mem_singleton.mp hb] at hab
    exact hpnot (hab ▸ ha)
  · intro i hi
    obtain hi | hi := List.mem_append.mp hi
    · exact h.perm_lt i hi
    · exact List.mem_singleton.mp hi ▸ hp.1
  · rw [List.length_append, h.perm_length, List.length_singleton]

theorem Represents.adj_next (h : Represents n step H q) (hp : q.Live n p)
    (he : Eliminated n step p lp rest q q')
    (hmem : ∀ v, v ∈ lp ↔ q.Live n v ∧ v ≠ p ∧ H.Adj p v) {i : ℕ} (hi : q'.Live n i) :
    (q'.adj i).Nodup ∧ ∀ v ∈ q'.adj i, q'.Live n v ∧ v ≠ i := by
  have hlive := ((he.live_iff i).mp hi).1
  constructor
  · have hold := h.adj_nodup i hlive
    rw [he.adj]
    split_ifs
    · exact hold.filter _
    · exact hold
  · intro v hv
    have hkeeps := fun hv hin => h.alive_of_mem_adj hp he hmem (v := v) hi hv hin
    obtain ⟨hv, halive, -⟩ := (he.mem_adj_iff hkeeps).mp hv
    exact ⟨⟨(h.adj_live i hlive v hv).1.1, halive⟩, (h.adj_live i hlive v hv).2⟩

theorem Represents.elems_next (h : Represents n step H q) (hp : q.Live n p)
    (he : Eliminated n step p lp rest q q')
    (hmem : ∀ v, v ∈ lp ↔ q.Live n v ∧ v ≠ p ∧ H.Adj p v) {i : ℕ} (hi : q'.Live n i) :
    (q'.elemsOf i).Nodup ∧ ∀ e ∈ q'.elemsOf i, q'.elemAlive e = true := by
  obtain ⟨hlive, hip⟩ := (he.live_iff i).mp hi
  constructor
  · have hold := h.elems_nodup i hlive
    rw [he.elemsOf i hip]
    split_ifs
    · apply List.nodup_append.mpr
      refine ⟨hold.filter _, List.nodup_singleton p, ?_⟩
      intro a ha b hb hab
      rw [List.mem_singleton.mp hb] at hab
      exact h.not_mem_elemsOf hp hlive (hab ▸ List.mem_of_mem_filter ha)
    · exact hold
  · intro e hmember
    cases (h.mem_elemsOf_iff hp he hmem hi e).mp hmember with
    | inl hnew => exact (he.elemAlive e).mpr (Or.inl hnew.1)
    | inr hold => exact hold.2

/-- A variable and an element still name each other. -/
theorem Represents.elem_mem_next (h : Represents n step H q) (hp : q.Live n p)
    (he : Eliminated n step p lp rest q q')
    (hmem : ∀ v, v ∈ lp ↔ q.Live n v ∧ v ≠ p ∧ H.Adj p v) {i e : ℕ} (hi : q'.Live n i)
    (halive : q'.elemAlive e = true) : i ∈ q'.elemVars e ↔ e ∈ q'.elemsOf i := by
  obtain ⟨hlive, hip⟩ := (he.live_iff i).mp hi
  rw [h.mem_elemsOf_iff hp he hmem hi, he.elemVars]
  split_ifs with hep
  · subst hep
    have hnot : e ∉ q.elemsOf i := h.not_mem_elemsOf hp hlive
    tauto
  · have hold : q.elemAlive e = true := by
      cases (he.elemAlive e).mp halive with
      | inl heq => exact absurd heq hep
      | inr hold => exact hold.1
    rw [h.elem_mem i e hlive hold]
    tauto

/-- The new element has the boundary, the old ones keep their variables. -/
theorem Represents.vars_next (h : Represents n step H q)
    (he : Eliminated n step p lp rest q q') (hnodup : lp.Nodup)
    (hmem : ∀ v, v ∈ lp ↔ q.Live n v ∧ v ≠ p ∧ H.Adj p v) {e : ℕ}
    (halive : q'.elemAlive e = true) :
    e ∈ q'.perm ∧ (q'.elemVars e).Nodup ∧ ∀ v ∈ q'.elemVars e, v < n := by
  rw [he.perm, he.elemVars, List.mem_append, List.mem_singleton]
  split_ifs with hep
  · exact ⟨Or.inr hep, hnodup, fun v hv => ((hmem v).mp hv).1.1⟩
  · cases (he.elemAlive e).mp halive with
    | inl heq => exact absurd heq hep
    | inr hold =>
      exact ⟨Or.inl (h.elem_dead e hold.1), h.vars_nodup e hold.1, h.vars_lt e hold.1⟩

theorem Represents.covered_next (h : Represents n step H q) (hp : q.Live n p)
    (he : Eliminated n step p lp rest q q')
    (hmem : ∀ v, v ∈ lp ↔ q.Live n v ∧ v ≠ p ∧ H.Adj p v) {i e v : ℕ} (hi : q'.Live n i)
    (hv : v ∈ q'.adj i) (hmember : e ∈ q'.elemsOf i) : v ∉ q'.elemVars e := by
  obtain ⟨hlive, hip⟩ := (he.live_iff i).mp hi
  have hkeeps := fun hv hin => h.alive_of_mem_adj hp he hmem (v := v) hi hv hin
  obtain ⟨hv, -, hout⟩ := (he.mem_adj_iff hkeeps).mp hv
  rw [he.elemVars]
  cases (h.mem_elemsOf_iff hp he hmem hi e).mp hmember with
  | inl hnew =>
    rw [if_pos hnew.1]
    exact hout hnew.2
  | inr hold =>
    have hep : e ≠ p := fun heq => h.not_mem_elemsOf hp hlive (heq ▸ hold.1)
    rw [if_neg hep]
    exact h.covered i e v hlive hv hold.1

/-- The state keeps representing the elimination graph. -/
theorem Represents.next (h : Represents n step H q) (hp : q.Live n p)
    (he : Eliminated n step p lp rest q q') (hnodup : lp.Nodup)
    (hmem : ∀ v, v ∈ lp ↔ q.Live n v ∧ v ≠ p ∧ H.Adj p v) :
    Represents n (step + 1) (eliminate H p) q' where
  perm_nodup := (h.perm_next hp he).1
  perm_lt := (h.perm_next hp he).2.1
  perm_length := (h.perm_next hp he).2.2
  alive_iff := by
    intro i hi
    rw [he.varAlive, h.alive_iff i hi, he.perm, List.mem_append, List.mem_singleton]
    tauto
  adj_live := fun i hi => (h.adj_next hp he hmem hi).2
  adj_nodup := fun i hi => (h.adj_next hp he hmem hi).1
  elems_nodup := fun i hi => (h.elems_next hp he hmem hi).1
  elems_alive := fun i hi => (h.elems_next hp he hmem hi).2
  elem_mem := fun i e hi halive => h.elem_mem_next hp he hmem hi halive
  elem_dead := fun e halive => (h.vars_next he hnodup hmem halive).1
  vars_nodup := fun e halive => (h.vars_next he hnodup hmem halive).2.1
  vars_lt := fun e halive => (h.vars_next he hnodup hmem halive).2.2
  covered := fun i e v hi hv hmember => h.covered_next hp he hmem hi hv hmember
  live_of_adj := by
    intro i j hadj
    obtain ⟨-, hip, -, hadj⟩ := hadj
    refine (he.live_iff i).mpr ⟨?_, hip⟩
    cases hadj with
    | inl hadj => exact h.live_of_adj i j hadj
    | inr hadj => exact h.live_of_adj i p hadj.1
  adj_iff := fun i j hi hj => h.adj_iff_next hp he hmem hi hj
  marked_lt := by
    intro v s hs
    cases he.marked v s hs with
    | inl hold => exact Nat.lt_succ_of_lt (h.marked_lt v s hold)
    | inr hnew => exact hnew ▸ Nat.lt_succ_self step
  stamp_lt := by
    intro e s hs
    cases he.wStamp e s hs with
    | inl hold => exact Nat.lt_succ_of_lt (h.stamp_lt e s hold)
    | inr hnew => exact hnew ▸ Nat.lt_succ_self step

end Preservation

end Quotient

end FrankenSim.Sparse
