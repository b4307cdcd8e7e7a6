import FrankenSim.Sparse.Adjacency

/-!
# The passes of an elimination

What each loop of an elimination leaves behind, in closed form: the marks and the dead
elements of the pivot, the counters of the elements seen from the boundary, the absorbed
elements and the refreshed variables.
-/
namespace FrankenSim.Sparse

open Library

namespace Quotient

variable (q : Quotient) {n step p i e : ℕ} {lp es : List ℕ} {heap : List (ℕ ×ₗ ℕ)}

def liveCount (e : ℕ) : ℕ := (q.elemVars e).countP fun v => q.varAlive v

def counted (step : ℕ) (es : List ℕ) : Quotient :=
  { q with
    wStamp := fun e => if e ∈ es ∧ q.elemAlive e then some step else q.wStamp e
    wVal := fun e => if e ∈ es ∧ q.elemAlive e then q.liveCount e - es.count e else q.wVal e }

/-- The counting pass never falls below zero where no element is visited more often than
it has live variables. -/
theorem foldlM_visitElement (hstamp : ∀ e, q.wStamp e ≠ some step)
    (hcount : ∀ e, q.elemAlive e = true → es.count e ≤ q.liveCount e) :
    es.foldlM (visitElement step) q = some (q.counted step es) := by
  induction es using List.reverseRecOn with
  | nil => simp [counted]
  | append_singleton es e ih =>
    have hbefore : ∀ e, q.elemAlive e = true → es.count e ≤ q.liveCount e := by
      intro e' he
      apply Nat.le_trans _ (hcount e' he)
      rw [List.count_append]
      exact Nat.le_add_right _ _
    rw [List.foldlM_append, ih hbefore]
    change (visitElement step (q.counted step es) e >>= pure) = _
    rw [bind_pure, visitElement, show (q.counted step es).elemAlive = q.elemAlive from rfl]
    by_cases he : q.elemAlive e = true
    · have hlt : es.count e < q.liveCount e := by
        have := hcount e he
        rw [List.count_append, List.count_singleton_self] at this
        omega
      have hfirst : (q.counted step es).stampElement step e =
          { q.counted step es with
            wStamp := put (q.counted step es).wStamp e (some step)
            wVal := put (q.counted step es).wVal e (q.liveCount e - es.count e) } := by
        rw [stampElement]
        by_cases hmem : e ∈ es
        · have hstamped : (q.counted step es).wStamp e = some step := if_pos ⟨hmem, he⟩
          have hval : (q.counted step es).wVal e = q.liveCount e - es.count e :=
            if_pos ⟨hmem, he⟩
          rw [if_neg (not_not.mpr hstamped), put, put, ← hstamped, ← hval,
            Function.update_eq_self, Function.update_eq_self]
        · have hfresh : (q.counted step es).wStamp e = q.wStamp e := if_neg fun h => hmem h.1
          rw [if_pos (hfresh ▸ hstamp e), List.count_eq_zero_of_not_mem hmem]
          rfl
      rw [if_pos he, hfirst, lowerCount]
      simp only [put, Function.update_self, Function.update_idem]
      rw [if_neg (by omega)]
      congr 1
      simp only [counted, mk.injEq, true_and]
      refine ⟨?_, ?_⟩
      · funext e'
        by_cases heq : e' = e
        · subst heq
          simp [he]
        · simp [heq]
      · funext e'
        by_cases heq : e' = e
        · subst heq
          rw [Function.update_self, List.count_append, List.count_singleton_self,
            if_pos ⟨List.mem_append_right _ (List.mem_singleton_self _), he⟩]
          omega
        · have hother : [e].count e' = 0 := List.count_eq_zero_of_not_mem (by simpa using heq)
          simp [heq, List.count_append, hother]
    · rw [if_neg he]
      congr 1
      simp only [counted, mk.injEq, true_and]
      refine ⟨?_, ?_⟩ <;>
      · funext e'
        by_cases heq : e' = e
        · subst heq
          simp [he]
        · have hother : [e].count e' = 0 := List.count_eq_zero_of_not_mem (by simpa using heq)
          simp [heq, List.count_append, hother]

/-- The elements left after the absorption of those among `es` that reach nothing new. -/
def absorbed (step : ℕ) (es : List ℕ) : Quotient :=
  { q with
    elemAlive := fun e =>
      q.elemAlive e && !decide (e ∈ es ∧ q.wStamp e = some step ∧ q.wVal e = 0) }

theorem foldl_absorbElement : es.foldl (absorbElement step) q = q.absorbed step es := by
  induction es using List.reverseRecOn with
  | nil => simp [absorbed]
  | append_singleton es e ih =>
    rw [List.foldl_concat, ih, absorbElement]
    split
    case isTrue h =>
      simp only [absorbed, mk.injEq, true_and, and_true] at h ⊢
      funext e'
      by_cases heq : e' = e
      · subst heq
        simp_all
      · simp [heq]
    case isFalse h =>
      simp only [absorbed, mk.injEq, true_and, and_true] at h ⊢
      funext e'
      by_cases heq : e' = e
      · subst heq
        simp_all
        grind
      · simp [heq]

def refreshed (n step p : ℕ) (lp is : List ℕ) : Quotient :=
  { q with
    adj := fun i => if i ∈ is then q.prunedAdj step i else q.adj i
    elemsOf := fun i => if i ∈ is then q.prunedElems p i else q.elemsOf i
    degree := fun i => if i ∈ is then q.approximateDegree n step p lp i else q.degree i
    heap := is.foldl (fun heap i =>
      heap.orderedInsert (· ≤ ·) (toLex (q.approximateDegree n step p lp i, i))) q.heap }

/-- The refreshing pass treats every variable from the state before it. -/
theorem foldl_refresh {is : List ℕ} (h : is.Nodup) :
    is.foldl (refresh n step p lp) q = q.refreshed n step p lp is := by
  induction is using List.reverseRecOn with
  | nil => simp [refreshed]
  | append_singleton is i ih =>
    have hi : i ∉ is := by
      intro hmem
      exact List.disjoint_of_nodup_append h hmem (List.mem_singleton_self i)
    have hadj : (q.refreshed n step p lp is).prunedAdj step i = q.prunedAdj step i := by
      simp [prunedAdj, refreshed, hi]
    have helems : (q.refreshed n step p lp is).prunedElems p i = q.prunedElems p i := by
      simp [prunedElems, refreshed, hi]
    have hdegree : (q.refreshed n step p lp is).approximateDegree n step p lp i =
        q.approximateDegree n step p lp i := by
      rw [approximateDegree, hadj, helems]
      rfl
    rw [List.foldl_concat, ih (List.nodup_append.mp h).1, refresh, hadj, helems, hdegree]
    simp only [refreshed, mk.injEq, List.foldl_concat, true_and, and_true]
    refine ⟨?_, ?_, ?_⟩ <;>
    · funext j
      by_cases hj : j = i
      · subst hj
        simp
      · simp [hj]

theorem foldl_addOutside (d : ℕ) : es.foldl (q.addOutside step p) d =
    d + ((es.filter fun e => decide (e ≠ p ∧ q.wStamp e = some step)).map q.wVal).sum := by
  induction es generalizing d with
  | nil => rfl
  | cons e es ih =>
    rw [List.foldl_cons, ih, addOutside]
    by_cases h : e ≠ p ∧ q.wStamp e = some step
    · rw [if_pos h, List.filter_cons_of_pos (by simpa using h), List.map_cons, List.sum_cons]
      omega
    · rw [if_neg h, List.filter_cons_of_neg (by simpa using h)]

end Quotient

end FrankenSim.Sparse
