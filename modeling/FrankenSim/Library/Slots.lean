import Mathlib.Algebra.BigOperators.Group.List.Basic
import Mathlib.Tactic

/-!
# Slots, spans and offset tables

Checked access to a list: rewriting one slot, reading a span, and the running
sums that turn a table of lengths into a table of offsets. A whole pass of slot
updates leaves in each slot what the updates aimed at it, in their order, make
of it; the spans between the offsets of a list of blocks are the blocks.
-/
namespace FrankenSim.Library

variable {α β : Type*}

/-- Rewrite the slot at `i`, which has to be there. -/
def modifyAt (i : ℕ) (f : α → α) (xs : List α) : Option (List α) :=
  if i < xs.length then some (xs.modify i f) else none

theorem modifyAt_of_lt {i : ℕ} {f : α → α} {xs : List α} (h : i < xs.length) :
    modifyAt i f xs = some (xs.modify i f) :=
  if_pos h

theorem modifyAt_eq_set {i : ℕ} {f : α → α} {xs : List α} {a : α} (h : xs[i]? = some a) :
    modifyAt i f xs = some (xs.set i (f a)) := by
  obtain ⟨hi, rfl⟩ := List.getElem?_eq_some_iff.mp h
  rw [modifyAt_of_lt hi]
  congr 1
  apply List.ext_getElem (by simp)
  intro j hj hj'
  rw [List.getElem_modify, List.getElem_set]
  split
  case isTrue hij => subst hij; rfl
  case isFalse => rfl

theorem set_eq_self {i : ℕ} {xs : List α} {a : α} (h : xs[i]? = some a) : xs.set i a = xs := by
  obtain ⟨hi, rfl⟩ := List.getElem?_eq_some_iff.mp h
  exact List.set_getElem_self hi

theorem forM_some {f : α → Option Unit} {l : List α} (h : ∀ a ∈ l, f a = some ()) :
    l.forM f = some () := by
  induction l with
  | nil => rfl
  | cons a l ih =>
    change (f a >>= fun _ => l.forM f) = some ()
    rw [h a List.mem_cons_self, Option.bind_eq_bind, Option.bind_some]
    exact ih fun a ha => h a (List.mem_cons_of_mem _ ha)

theorem of_forM_some {f : α → Option Unit} {l : List α} (h : l.forM f = some ()) :
    ∀ a ∈ l, f a = some () := by
  induction l with
  | nil => exact fun a ha => absurd ha List.not_mem_nil
  | cons a l ih =>
    change (f a >>= fun _ => l.forM f) = some () at h
    obtain ⟨u, hu, hl⟩ := Option.bind_eq_some_iff.mp h
    intro b hb
    obtain rfl | hb := List.mem_cons.mp hb
    · exact hu
    · exact ih hl b hb

theorem foldlM_congr {f g : α → β → Option α} {bs : List β} {a : α}
    (h : ∀ b ∈ bs, ∀ a, f a b = g a b) : bs.foldlM f a = bs.foldlM g a := by
  induction bs generalizing a with
  | nil => rfl
  | cons b bs ih =>
    rw [List.foldlM_cons, List.foldlM_cons, h b List.mem_cons_self]
    congr 1
    funext a
    exact ih fun b hb => h b (List.mem_cons_of_mem _ hb)

theorem foldl_overwrite {bs : List β} {f : β → α} {a v : α} (hv : ∀ b ∈ bs, f b = v)
    (hnone : bs = [] → a = v) : bs.foldl (fun _ b => f b) a = v := by
  induction bs generalizing a with
  | nil => exact hnone rfl
  | cons b bs ih =>
    rw [List.foldl_cons]
    apply ih
    · exact fun b hb => hv b (List.mem_cons_of_mem _ hb)
    · exact fun _ => hv b List.mem_cons_self

/-- A pass of updates leaves each slot to the updates aimed at it. -/
theorem foldlM_modifyAt (slot : β → ℕ) (act : β → α → α) {bs : List β} {xs : List α}
    (h : ∀ b ∈ bs, slot b < xs.length) :
    bs.foldlM (fun xs b => modifyAt (slot b) (act b) xs) xs =
      some (xs.mapIdx fun i x => (bs.filter (slot · = i)).foldl (fun x b => act b x) x) := by
  induction bs generalizing xs with
  | nil => exact congrArg some (by apply List.ext_getElem <;> simp)
  | cons b bs ih =>
    rw [List.foldlM_cons, modifyAt_of_lt (h b List.mem_cons_self), Option.bind_eq_bind,
      Option.bind_some, ih]
    · congr 1
      apply List.ext_getElem (by simp)
      intro i hi hi'
      simp only [List.getElem_mapIdx, List.getElem_modify, List.filter_cons]
      by_cases hslot : slot b = i <;> simp [hslot]
    · intro b' hb'
      rw [List.length_modify]
      exact h b' (List.mem_cons_of_mem _ hb')

/-- A pass over the first slots that rewrites each of them once. -/
theorem foldlM_sweep {body : List α → ℕ → Option (List α)} {f g : ℕ → α} {n m : ℕ} (hm : m ≤ n)
    (h : ∀ i < m, ∀ xs : List α, xs.length = n → xs[i]? = some (f i) →
      body xs i = some (xs.set i (g i))) :
    (List.range m).foldlM body ((List.range n).map f) =
      some ((List.range n).map fun i => if i < m then g i else f i) := by
  induction m with
  | zero => simp
  | succ m ih =>
    rw [List.range_succ, List.foldlM_append,
      ih (Nat.le_of_succ_le hm) fun i hi => h i (Nat.lt_succ_of_lt hi), Option.bind_eq_bind,
      Option.bind_some, List.foldlM_cons, h m (Nat.lt_succ_self m) _ (by simp)
        (by rw [List.getElem?_map, List.getElem?_range hm]; simp)]
    change some _ = some _
    congr 1
    apply List.ext_getElem (by simp)
    intro i hi hi'
    rw [List.getElem_set, List.getElem_map, List.getElem_map, List.getElem_range]
    by_cases him : m = i
    · simp [him]
    · rw [if_neg him]
      have : i < m ↔ i < m + 1 := by omega
      simp only [this]

theorem foldl_succ (bs : List β) (n : ℕ) : bs.foldl (fun n _ => n + 1) n = n + bs.length := by
  induction bs generalizing n with
  | nil => rfl
  | cons b bs ih => rw [List.foldl_cons, ih, List.length_cons]; omega

theorem foldl_concat (bs xs : List β) : bs.foldl (fun xs b => xs ++ [b]) xs = xs ++ bs := by
  induction bs generalizing xs with
  | nil => simp
  | cons b bs ih => rw [List.foldl_cons, ih, List.append_assoc, List.singleton_append]

/-- Only one part contributes. -/
theorem flatMap_range_single {f : ℕ → List α} {i n : ℕ} (hi : i < n)
    (h : ∀ j, j ≠ i → f j = []) : (List.range n).flatMap f = f i := by
  induction n with
  | zero => exact absurd hi (Nat.not_lt_zero i)
  | succ n ih =>
    rw [List.range_succ, List.flatMap_append, List.flatMap_singleton]
    obtain hlt | rfl := Nat.lt_succ_iff_lt_or_eq.mp hi
    · rw [ih hlt, h n (Nat.ne_of_gt hlt), List.append_nil]
    · rw [List.flatMap_eq_nil_iff.mpr, List.nil_append]
      exact fun j hj => h j (Nat.ne_of_lt (List.mem_range.mp hj))

theorem flatMap_filter_of_nil {p : β → Bool} {f : β → List α} {bs : List β}
    (h : ∀ b ∈ bs, ¬ p b → f b = []) : (bs.filter p).flatMap f = bs.flatMap f := by
  induction bs with
  | nil => rfl
  | cons b bs ih =>
    have ih := ih fun b hb => h b (List.mem_cons_of_mem _ hb)
    rw [List.filter_cons]
    split
    case isTrue => rw [List.flatMap_cons, List.flatMap_cons, ih]
    case isFalse hp => rw [ih, List.flatMap_cons, h b List.mem_cons_self hp, List.nil_append]

theorem filterMap_ite {p : β → Bool} {f : β → α} (bs : List β) :
    (bs.map fun b => if p b then some (f b) else none).filterMap id = (bs.filter p).map f := by
  induction bs with
  | nil => rfl
  | cons b bs ih =>
    rw [List.map_cons, List.filter_cons]
    split
    · rw [List.map_cons, ← ih]
      rfl
    · rw [← ih]
      rfl

/-- The elements from `lo` on up to `hi`, which must not lie outside. -/
def span (lo hi : ℕ) (xs : List α) : Option (List α) :=
  if lo ≤ hi ∧ hi ≤ xs.length then some ((xs.drop lo).take (hi - lo)) else none

@[simp] theorem span_map (f : α → β) (lo hi : ℕ) (xs : List α) :
    span lo hi (xs.map f) = (span lo hi xs).map (List.map f) := by
  unfold span
  rw [List.length_map]
  split
  · rw [Option.map_some, List.map_take, List.map_drop]
  · rfl

theorem exists_span {lo hi : ℕ} {xs : List α} (hle : lo ≤ hi) (hhi : hi ≤ xs.length) :
    ∃ ys, span lo hi xs = some ys ∧ ∀ i < hi - lo, ys[i]? = xs[lo + i]? := by
  refine ⟨_, if_pos ⟨hle, hhi⟩, ?_⟩
  intro i hi
  rw [List.getElem?_take_of_lt hi, List.getElem?_drop]

theorem span_append (xs ys zs : List α) :
    span xs.length (xs.length + ys.length) (xs ++ ys ++ zs) = some ys := by
  unfold span
  rw [if_pos ⟨by omega, by simp⟩, Nat.add_sub_cancel_left, List.append_assoc, List.drop_left,
    List.take_left]

/-- Every entry with all entries before it added in, and `s` at the start. -/
def runningSums (s : ℕ) : List ℕ → List ℕ
  | [] => []
  | n :: ns => (s + n) :: runningSums (s + n) ns

@[simp] theorem length_runningSums (s : ℕ) (ns : List ℕ) :
    (runningSums s ns).length = ns.length := by
  induction ns generalizing s with
  | nil => rfl
  | cons n ns ih => rw [runningSums, List.length_cons, ih, List.length_cons]

theorem getElem_runningSums (s : ℕ) (ns : List ℕ) {i : ℕ} (h : i < (runningSums s ns).length) :
    (runningSums s ns)[i] = s + (ns.take (i + 1)).sum := by
  induction ns generalizing s i with
  | nil => exact absurd h (Nat.not_lt_zero i)
  | cons n ns ih =>
    cases i with
    | zero => simp [runningSums]
    | succ i =>
      simp only [runningSums, List.getElem_cons_succ, List.take_succ_cons, List.sum_cons]
      rw [ih, Nat.add_assoc]

theorem runningSums_sorted (s : ℕ) (ns : List ℕ) : (s :: runningSums s ns).Pairwise (· ≤ ·) := by
  induction ns generalizing s with
  | nil => exact List.pairwise_singleton _ _
  | cons n ns ih =>
    rw [runningSums, List.pairwise_cons]
    refine ⟨?_, ih (s + n)⟩
    intro m hm
    have hle : s + n ≤ m := by
      obtain rfl | hm := List.mem_cons.mp hm
      · exact Nat.le_refl _
      · exact (List.pairwise_cons.mp (ih (s + n))).1 m hm
    exact Nat.le_trans (Nat.le_add_right s n) hle

/-- Where the blocks start and the last one ends. -/
def offsets (blocks : List (List α)) : List ℕ :=
  0 :: runningSums 0 (blocks.map List.length)

variable {blocks : List (List α)}

@[simp] theorem length_offsets : (offsets blocks).length = blocks.length + 1 := by
  simp [offsets]

theorem getElem?_offsets {i : ℕ} (h : i ≤ blocks.length) :
    (offsets blocks)[i]? = some (blocks.take i).flatten.length := by
  cases i with
  | zero => rfl
  | succ i =>
    rw [offsets, List.getElem?_cons_succ, List.getElem?_eq_getElem (by simp; omega),
      getElem_runningSums, List.length_flatten, ← List.map_take, Nat.zero_add]

theorem runningSums_concat (s : ℕ) (ns : List ℕ) (n : ℕ) :
    runningSums s (ns ++ [n]) = runningSums s ns ++ [s + (ns ++ [n]).sum] := by
  induction ns generalizing s with
  | nil => simp [runningSums]
  | cons m ns ih =>
    rw [List.cons_append, runningSums, ih, runningSums, List.cons_append, List.sum_cons,
      Nat.add_assoc]

theorem offsets_concat (b : List α) :
    offsets (blocks ++ [b]) = offsets blocks ++ [(blocks ++ [b]).flatten.length] := by
  rw [offsets, List.map_append, List.map_singleton, runningSums_concat, List.length_flatten,
    List.map_append, List.map_singleton, Nat.zero_add]
  rfl

theorem length_take_succ_flatten {i : ℕ} (h : i < blocks.length) :
    (blocks.take (i + 1)).flatten.length = (blocks.take i).flatten.length + blocks[i].length := by
  rw [List.take_succ_eq_append_getElem h, List.flatten_append, List.length_append]
  simp

/-- The span between two neighbouring offsets is the block. -/
theorem span_offsets {i : ℕ} (h : i < blocks.length) :
    span (blocks.take i).flatten.length (blocks.take (i + 1)).flatten.length blocks.flatten =
      some blocks[i] := by
  have hsplit : blocks.flatten =
      (blocks.take i).flatten ++ blocks[i] ++ (blocks.drop (i + 1)).flatten := by
    conv_lhs => rw [← List.take_append_drop i blocks, List.drop_eq_getElem_cons h,
      List.flatten_append, List.flatten_cons]
    rw [List.append_assoc]
  rw [length_take_succ_flatten h, hsplit]
  apply span_append

theorem getLast?_offsets : (offsets blocks).getLast? = some blocks.flatten.length := by
  rw [List.getLast?_eq_getElem?, length_offsets, Nat.add_sub_cancel, getElem?_offsets (Nat.le_refl _),
    List.take_length]

end FrankenSim.Library
