import FrankenSim.Cbc.ExactNat

/-!
# Comparison and normalization in slices

A comparison keeps the position down to which the limbs agree, and a normalization needs to
keep nothing.
-/
namespace FrankenSim.Cbc

open Library

def compareCalls (a b : List ℕ) : List ℕ → ℕ → Except Fault (Option Ordering × ℕ)
  | [], pos => .ok (none, pos)
  | budget :: budgets, pos => do
    let result ← stepCompare a b pos budget
    match result with
    | (none, pos') => compareCalls a b budgets pos'
    | result => .ok result

def normalizeCalls (budgets : List ℕ) (dst : List ℕ) : List ℕ :=
  budgets.foldl (fun dst budget => (stepNormalize dst budget).1) dst

section Compare

variable {a b : List ℕ}

/-- The order of the limbs below a position. -/
def orderBelow (a b : List ℕ) (pos : ℕ) : Ordering :=
  List.compareLex compare (a.take pos).reverse (b.take pos).reverse

theorem orderBelow_succ {pos : ℕ} (ha : pos < a.length) (hb : pos < b.length) :
    orderBelow a b (pos + 1) = (compare a[pos] b[pos]).then (orderBelow a b pos) := by
  rw [orderBelow, orderBelow, List.take_succ_eq_append_getElem ha,
    List.take_succ_eq_append_getElem hb, List.reverse_append, List.reverse_append,
    List.reverse_singleton, List.reverse_singleton, List.singleton_append, List.singleton_append,
    List.compareLex_cons_cons]

/-- A call decides as the limbs below its position do, or keeps a lower position with the same
limbs to decide. -/
theorem compareLoop_spec (hlength : a.length = b.length) (pos budget : ℕ) (hpos : pos ≤ a.length) :
    ∃ pos' ≤ pos, compareLoop a b pos budget = .ok (some (orderBelow a b pos), pos') ∨
      compareLoop a b pos budget = .ok (none, pos') ∧ pos = pos' + budget ∧ 0 < pos' ∧
        orderBelow a b pos = orderBelow a b pos' := by
  induction pos generalizing budget with
  | zero => exact ⟨0, le_refl _, .inl (by simp [compareLoop, orderBelow, List.compareLex_nil_nil])⟩
  | succ pos ih =>
    cases budget with
    | zero => exact ⟨pos + 1, le_refl _, .inr ⟨rfl, rfl, by omega, rfl⟩⟩
    | succ budget =>
      have ha : pos < a.length := by omega
      have hb : pos < b.length := by omega
      rw [orderBelow_succ ha hb]
      simp only [compareLoop, Operation.limbAt_of_lt ha, Operation.limbAt_of_lt hb, bind,
        Except.bind]
      cases hlimb : compare a[pos] b[pos] with
      | lt => exact ⟨pos, by omega, .inl rfl⟩
      | gt => exact ⟨pos, by omega, .inl rfl⟩
      | eq =>
        obtain ⟨pos', hle, hcall⟩ := ih budget (by omega)
        refine ⟨pos', by omega, hcall.imp id ?_⟩
        rintro ⟨hnone, hsum, hpos', horder⟩
        exact ⟨hnone, by omega, hpos', horder⟩

theorem magnitudeCmp_eq_orderBelow (hlength : a.length = b.length) :
    magnitudeCmp a b = orderBelow a b a.length := by
  rw [magnitudeCmp, compare_eq_iff_eq.2 hlength, orderBelow, List.take_length, hlength,
    List.take_length]

/-- Whatever the budgets are, calls that decide give the order of one comparison, and they
decide when the budgets cover the limbs. -/
theorem compareCalls_exact (a b : List ℕ) (budgets : List ℕ) : ∃ pos,
    compareCalls a b budgets a.length = .ok (some (magnitudeCmp a b), pos) ∨
      compareCalls a b budgets a.length = .ok (none, pos) ∧
        (budgets = [] ∨ budgets.sum < a.length) := by
  by_cases hlength : a.length = b.length
  · rw [magnitudeCmp_eq_orderBelow hlength]
    suffices hgeneral : ∀ pos ≤ a.length, ∃ pos',
        compareCalls a b budgets pos = .ok (some (orderBelow a b pos), pos') ∨
          compareCalls a b budgets pos = .ok (none, pos') ∧
            (budgets = [] ∨ budgets.sum < pos) from hgeneral a.length (le_refl _)
    induction budgets with
    | nil => exact fun pos _ => ⟨pos, .inr ⟨rfl, .inl rfl⟩⟩
    | cons budget budgets ih =>
      intro pos hpos
      obtain ⟨pos', hle, hcall⟩ := compareLoop_spec hlength pos budget hpos
      have hstep : stepCompare a b pos budget = compareLoop a b pos budget := by
        rw [stepCompare, compare_eq_iff_eq.2 hlength]
      simp only [compareCalls, hstep, bind, Except.bind]
      obtain hsome | ⟨hnone, hsum, hpos', horder⟩ := hcall
      · rw [hsome]
        exact ⟨pos', .inl rfl⟩
      · rw [hnone, horder]
        obtain ⟨pos'', hrest⟩ := ih pos' (by omega)
        refine ⟨pos'', hrest.imp id ?_⟩
        rintro ⟨hcalls, hbudgets⟩
        refine ⟨hcalls, .inr ?_⟩
        rw [List.sum_cons]
        obtain rfl | hbudgets := hbudgets
        · simp only [List.sum_nil]
          omega
        · omega
  · have hstep (pos budget : ℕ) :
        stepCompare a b pos budget = .ok (some (magnitudeCmp a b), pos) := by
      rw [stepCompare, magnitudeCmp]
      cases horder : compare a.length b.length with
      | lt => rfl
      | gt => rfl
      | eq => exact absurd (compare_eq_iff_eq.1 horder) hlength
    cases budgets with
    | nil => exact ⟨a.length, .inr ⟨rfl, .inl rfl⟩⟩
    | cons budget budgets =>
      refine ⟨a.length, .inl ?_⟩
      simp only [compareCalls, hstep, bind, Except.bind]

end Compare

section Normalize

/-- A call pops zero limbs until its budget is spent or none is left. -/
theorem stepNormalize_spec (dst : List ℕ) (budget : ℕ) :
    trimmed (stepNormalize dst budget).1 = trimmed dst ∧
      (stepNormalize dst budget).1.length + (stepNormalize dst budget).2 = dst.length ∧
      ((stepNormalize dst budget).2 < budget → (stepNormalize dst budget).1 = trimmed dst) ∧
      (stepNormalize dst budget).2 ≤ budget := by
  induction budget generalizing dst with
  | zero => simp [stepNormalize]
  | succ budget ih =>
    by_cases hlast : dst.getLast? = some 0
    · obtain ⟨low, rfl⟩ := List.getLast?_eq_some_iff.1 hlast
      obtain ⟨htrimmed, hlength, hdone, hle⟩ := ih low
      have hpop : trimmed (low ++ [0]) = trimmed low := by simp [trimmed]
      simp only [stepNormalize, hlast, if_true, List.dropLast_concat, List.length_append,
        List.length_singleton]
      rw [hpop]
      exact ⟨htrimmed, by omega, fun hlt => hdone (by omega), by omega⟩
    · have hfixed : trimmed dst = dst := by
        obtain rfl | ⟨low, x, rfl⟩ := List.eq_nil_or_concat' dst
        · rfl
        · have hx : x ≠ 0 := by simpa using hlast
          simp [trimmed, hx]
      simp only [stepNormalize, hlast, if_false]
      exact ⟨trivial, rfl, fun _ => hfixed.symm, Nat.zero_le _⟩

theorem normalize_normalizeCalls (budgets dst : List ℕ) :
    normalize (normalizeCalls budgets dst) = normalize dst := by
  induction budgets generalizing dst with
  | nil => rfl
  | cons budget budgets ih =>
    rw [normalizeCalls, List.foldl_cons]
    exact (ih _).trans (stepNormalize_spec dst budget).1

theorem eq_normalize_of_length {dst : List ℕ} (h : dst.length ≤ (normalize dst).length) :
    dst = normalize dst :=
  ((List.rdropWhile_prefix _ dst).eq_of_length_le h).symm

/-- The calls reach the normal form, or each of them spends its budget. -/
theorem normalizeCalls_spends (budgets dst : List ℕ) :
    normalizeCalls budgets dst = normalize dst ∨
      (normalizeCalls budgets dst).length + budgets.sum = dst.length := by
  induction budgets generalizing dst with
  | nil => exact .inr rfl
  | cons budget budgets ih =>
    have hkeeps := normalize_normalizeCalls budgets (stepNormalize dst budget).1
    obtain ⟨htrimmed, hlength, hdone, hle⟩ := stepNormalize_spec dst budget
    have hform : normalize (stepNormalize dst budget).1 = normalize dst := htrimmed
    have hcalls : normalizeCalls (budget :: budgets) dst =
        normalizeCalls budgets (stepNormalize dst budget).1 := rfl
    rw [hcalls, List.sum_cons]
    rw [hform] at hkeeps
    obtain hnormal | hspent := ih (stepNormalize dst budget).1
    · exact .inl (hnormal.trans hform)
    · by_cases hpopped : (stepNormalize dst budget).2 < budget
      · have hstep : (stepNormalize dst budget).1 = normalize dst := hdone hpopped
        refine .inl ((eq_normalize_of_length ?_).trans hkeeps)
        rw [hkeeps]
        rw [hstep] at hspent ⊢
        omega
      · exact .inr (by omega)

/-- Whatever the budgets are, the limbs keep their normal form; they have it once a call with a
positive budget pops nothing, and when the budgets cover the limbs. -/
theorem normalizeCalls_exact (budgets dst : List ℕ) :
    normalize (normalizeCalls budgets dst) = normalize dst ∧
      (∀ budget > 0, (stepNormalize (normalizeCalls budgets dst) budget).2 = 0 →
        normalizeCalls budgets dst = normalize dst) ∧
      (dst.length ≤ budgets.sum → normalizeCalls budgets dst = normalize dst) := by
  have hkeeps := normalize_normalizeCalls budgets dst
  refine ⟨hkeeps, ?_, ?_⟩
  · intro budget hbudget hzero
    obtain ⟨_, hlength, hdone, _⟩ := stepNormalize_spec (normalizeCalls budgets dst) budget
    have hstep := hdone (by omega)
    rw [hzero, add_zero] at hlength
    rw [hstep] at hlength
    exact (eq_normalize_of_length hlength.ge).trans hkeeps
  · intro hsum
    obtain hnormal | hspent := normalizeCalls_spends budgets dst
    · exact hnormal
    · have hnil : normalizeCalls budgets dst = [] := List.length_eq_zero_iff.1 (by omega)
      rw [← hkeeps, hnil]
      rfl

end Normalize

end FrankenSim.Cbc
