import Mathlib.Data.List.SplitLengths
import Mathlib.Data.Nat.BitIndices
import Mathlib.Data.Nat.Log
import Mathlib.Tactic

/-!
# Merkle trees from a stack of subtrees

Leaves are combined in a binary tree that splits at the largest power of two
strictly below their number, and the last node stays open. The forest of a list of
closed leaves holds the subtree of each set bit of their number, largest first. A
new leaf merges the last subtrees as a binary counter carries, and folding the
forest from the right gives the tree of all leaves.
-/
namespace FrankenSim.Library

variable {α β : Type*}

/-- The largest power of two strictly below a number. -/
def splitPoint (n : ℕ) : ℕ := 2 ^ Nat.log 2 (n - 1)

theorem splitPoint_pos (n : ℕ) : 0 < splitPoint n := by
  unfold splitPoint
  positivity

theorem splitPoint_lt {n : ℕ} (h : 2 ≤ n) : splitPoint n < n := by
  have hle : splitPoint n ≤ n - 1 := Nat.pow_log_le_self 2 (by omega)
  omega

theorem lt_two_mul_splitPoint (n : ℕ) : n ≤ 2 * splitPoint n := by
  have hlt : n - 1 < 2 ^ (Nat.log 2 (n - 1) + 1) := Nat.lt_pow_succ_log_self (by norm_num) _
  unfold splitPoint
  rw [pow_succ] at hlt
  omega

/-- Halving an even number halves its split point. -/
theorem splitPoint_two_mul {n : ℕ} (h : 2 ≤ n) : splitPoint (2 * n) = 2 * splitPoint n := by
  have hlog : Nat.log 2 (2 * n - 1) = Nat.log 2 (n - 1) + 1 := by
    rw [← Nat.log_mul_base (by norm_num) (by omega : n - 1 ≠ 0)]
    have heq : (2 * n - 1) / 2 = (n - 1) * 2 / 2 := by omega
    rw [← Nat.log_div_mul_self 2 (2 * n - 1), heq, Nat.log_div_mul_self]
  rw [splitPoint, hlog, pow_succ, splitPoint]
  ring

/-- The split point after one more leaf on an even number of them. -/
theorem splitPoint_succ {n : ℕ} (h : 1 ≤ n) : splitPoint (2 * n + 1) = 2 * splitPoint (n + 1) := by
  have hlog : Nat.log 2 (2 * n) = Nat.log 2 n + 1 := by
    rw [Nat.mul_comm]
    exact Nat.log_mul_base (by norm_num) (by omega)
  simp only [splitPoint, Nat.add_sub_cancel, hlog, pow_succ]
  ring

section Trees

variable (node : α → α → α) [Inhabited α]

/-- The tree over a list of closed leaves. -/
def tree (l : List α) : α :=
  if h : l.length ≤ 1 then l.headI
  else node (tree (l.take (splitPoint l.length))) (tree (l.drop (splitPoint l.length)))
termination_by l.length
decreasing_by
  · have hlt := splitPoint_lt (not_le.1 h)
    rw [List.length_take]
    omega
  · have hpos := splitPoint_pos l.length
    rw [List.length_drop]
    omega

/-- The subtree of each set bit of the number of leaves, largest first. -/
def forest (l : List α) : List α :=
  if h : l = [] then []
  else tree node (l.take (splitPoint (l.length + 1))) ::
    forest (l.drop (splitPoint (l.length + 1)))
termination_by l.length
decreasing_by
  have hpos := splitPoint_pos (l.length + 1)
  have hlen := List.length_pos_iff.2 h
  rw [List.length_drop]
  omega

/-- Adjacent leaves, joined. -/
def pairUp : List α → List α
  | a :: b :: l => node a b :: pairUp l
  | l => l

@[simp] theorem forest_nil : forest node ([] : List α) = [] := by
  unfold forest
  exact dif_pos rfl

theorem forest_of_ne {l : List α} (h : l ≠ []) :
    forest node l = tree node (l.take (splitPoint (l.length + 1))) ::
      forest node (l.drop (splitPoint (l.length + 1))) := by
  rw [forest]
  exact dif_neg h

theorem tree_of_le {l : List α} (h : l.length ≤ 1) : tree node l = l.headI := by
  rw [tree]
  exact dif_pos h

theorem tree_of_lt {l : List α} (h : 1 < l.length) :
    tree node l = node (tree node (l.take (splitPoint l.length)))
      (tree node (l.drop (splitPoint l.length))) := by
  rw [tree]
  exact dif_neg (not_le.2 h)

/-! ### Pairs of leaves -/

section Pairs

omit [Inhabited α] in
theorem length_pairUp : ∀ {m : ℕ} {l : List α}, l.length = 2 * m → (pairUp node l).length = m
  | 0, l, h => by
    rw [List.eq_nil_of_length_eq_zero h]
    rfl
  | m + 1, [], h => by simp at h
  | m + 1, [a], h => by simp at h; omega
  | m + 1, a :: b :: l, h => by
    have hl : l.length = 2 * m := by
      simp only [List.length_cons] at h
      omega
    simp [pairUp, length_pairUp hl]

omit [Inhabited α] in
theorem pairUp_append : ∀ {m : ℕ} {l : List α}, l.length = 2 * m → ∀ r : List α,
    pairUp node (l ++ r) = pairUp node l ++ pairUp node r
  | 0, l, h, r => by
    rw [List.eq_nil_of_length_eq_zero h]
    rfl
  | m + 1, [], h, r => by simp at h
  | m + 1, [a], h, r => by simp at h; omega
  | m + 1, a :: b :: l, h, r => by
    have hl : l.length = 2 * m := by
      simp only [List.length_cons] at h
      omega
    simp [pairUp, pairUp_append hl r]

/-- Splitting at an even position splits the pairs. -/
theorem pairUp_split {m s : ℕ} {l : List α} (h : l.length = 2 * m) (hs : s ≤ m) :
    pairUp node (l.take (2 * s)) = (pairUp node l).take s ∧
      pairUp node (l.drop (2 * s)) = (pairUp node l).drop s := by
  have htake : (l.take (2 * s)).length = 2 * s := by
    rw [List.length_take]
    omega
  have happend := pairUp_append node htake (l.drop (2 * s))
  rw [List.take_append_drop] at happend
  have hlen := length_pairUp node htake
  constructor
  · rw [happend, List.take_left' hlen]
  · rw [happend, List.drop_left' hlen]

theorem tree_pairUp {m : ℕ} {l : List α} (h : l.length = 2 * m) (hm : 1 ≤ m) :
    tree node (pairUp node l) = tree node l := by
  induction m using Nat.strong_induction_on generalizing l with
  | _ m ih =>
    rcases Nat.eq_or_lt_of_le hm with rfl | hm
    · obtain ⟨a, b, rfl⟩ := List.length_eq_two.1 h
      have hpair : tree node [a, b] = node a b := by
        have hone : splitPoint [a, b].length = 1 := by simp [splitPoint]
        rw [tree_of_lt node (by simp), hone, tree_of_le node (by simp), tree_of_le node (by simp)]
        rfl
      rw [hpair]
      exact tree_of_le node (by simp [pairUp])
    · have hlt := splitPoint_lt hm
      have hpos := splitPoint_pos m
      obtain ⟨htake, hdrop⟩ := pairUp_split node h hlt.le
      have hleft : (l.take (2 * splitPoint m)).length = 2 * splitPoint m := by
        rw [List.length_take]
        omega
      have hright : (l.drop (2 * splitPoint m)).length = 2 * (m - splitPoint m) := by
        rw [List.length_drop]
        omega
      have hpairs := length_pairUp node h
      rw [tree_of_lt node (l := l) (by omega), h, splitPoint_two_mul hm,
        tree_of_lt node (by omega), hpairs, ← htake, ← hdrop, ih _ hlt hleft hpos,
        ih _ (by omega) hright (by omega)]

theorem forest_pairUp {m : ℕ} {l : List α} (h : l.length = 2 * m) :
    forest node (pairUp node l) = forest node l := by
  induction m using Nat.strong_induction_on generalizing l with
  | _ m ih =>
    rcases Nat.eq_zero_or_pos m with rfl | hm
    · rw [List.eq_nil_of_length_eq_zero h]
      rfl
    · have hlt : splitPoint (m + 1) ≤ m := Nat.le_of_lt_succ (splitPoint_lt (by omega))
      have hpos := splitPoint_pos (m + 1)
      obtain ⟨htake, hdrop⟩ := pairUp_split node h hlt
      have hleft : (l.take (2 * splitPoint (m + 1))).length = 2 * splitPoint (m + 1) := by
        rw [List.length_take]
        omega
      have hright : (l.drop (2 * splitPoint (m + 1))).length = 2 * (m - splitPoint (m + 1)) := by
        rw [List.length_drop]
        omega
      have hpairs := length_pairUp node h
      have hne : l ≠ [] := List.ne_nil_of_length_pos (by omega)
      have hne' : pairUp node l ≠ [] := List.ne_nil_of_length_pos (by omega)
      rw [forest_of_ne node hne, forest_of_ne node hne', h, splitPoint_succ hm, hpairs, ← htake,
        ← hdrop, tree_pairUp node hleft hpos, ih _ (by omega) hright]

/-- A leaf after an even number of leaves is a subtree of its own. -/
theorem forest_snoc {m : ℕ} {l : List α} (h : l.length = 2 * m) (a : α) :
    forest node (l ++ [a]) = forest node l ++ [a] := by
  induction m using Nat.strong_induction_on generalizing l with
  | _ m ih =>
    rcases Nat.eq_zero_or_pos m with rfl | hm
    · have hone : splitPoint ([a].length + 1) = 1 := by simp [splitPoint]
      rw [List.eq_nil_of_length_eq_zero h, List.nil_append, forest_nil,
        forest_of_ne node (List.cons_ne_nil a []), hone, tree_of_le node (by simp)]
      simp
    · have hlt : splitPoint (m + 1) ≤ m := Nat.le_of_lt_succ (splitPoint_lt (by omega))
      have hpos := splitPoint_pos (m + 1)
      have hright : (l.drop (2 * splitPoint (m + 1))).length = 2 * (m - splitPoint (m + 1)) := by
        rw [List.length_drop]
        omega
      have hsplit : splitPoint ((l ++ [a]).length + 1) = 2 * splitPoint (m + 1) := by
        rw [List.length_append, h, ← splitPoint_two_mul (by omega)]
        rfl
      have hne : l ≠ [] := List.ne_nil_of_length_pos (by omega)
      have htake : (l ++ [a]).take (2 * splitPoint (m + 1)) = l.take (2 * splitPoint (m + 1)) :=
        List.take_append_of_le_length (by omega)
      have hdrop : (l ++ [a]).drop (2 * splitPoint (m + 1)) =
          l.drop (2 * splitPoint (m + 1)) ++ [a] := List.drop_append_of_le_length (by omega)
      rw [forest_of_ne node (by simp), hsplit, htake, hdrop, ih _ (by omega) hright,
        forest_of_ne node hne, h, splitPoint_succ hm, List.cons_append]

/-- Merging the last two leaves of a list merges the last subtrees. -/
theorem forest_merge {m : ℕ} {l : List α} (h : l.length = 2 * m) (a b : α) :
    forest node (pairUp node l ++ [node a b]) = forest node (l ++ [a] ++ [b]) := by
  have hlen : (l ++ [a, b]).length = 2 * (m + 1) := by
    simp [h]
    ring
  have hpair := forest_pairUp node hlen
  rw [pairUp_append node h] at hpair
  simpa [pairUp] using hpair

end Pairs

/-! ### The forest and the tree -/

/-- A forest has at most one subtree for each bit of the number of leaves. -/
theorem length_forest_le {k : ℕ} {l : List α} (h : l.length < 2 ^ k) :
    (forest node l).length ≤ k := by
  induction k generalizing l with
  | zero =>
    have hnil : l = [] := List.eq_nil_of_length_eq_zero (by omega)
    simp [hnil]
  | succ k ih =>
    by_cases hnil : l = []
    · simp [hnil]
    · have hlen := List.length_pos_iff.2 hnil
      rw [forest_of_ne node hnil, List.length_cons]
      refine Nat.succ_le_succ (ih ?_)
      rw [List.length_drop]
      have htwo := lt_two_mul_splitPoint (l.length + 1)
      have hle := splitPoint_lt (n := l.length + 1) (by omega)
      by_cases hk : l.length < 2 ^ k
      · have hpos := splitPoint_pos (l.length + 1)
        omega
      · have hlog : k ≤ Nat.log 2 l.length := Nat.le_log_of_pow_le (by norm_num) (by omega)
        have hpow : 2 ^ k ≤ splitPoint (l.length + 1) := by
          unfold splitPoint
          exact Nat.pow_le_pow_right (by norm_num) hlog
        rw [pow_succ] at h
        omega

/-- The sizes of the subtrees: the powers of two of the set bits, largest first. -/
def setBits (n : ℕ) : List ℕ := (n.bitIndices.map (2 ^ ·)).reverse

theorem setBits_of_pos {n : ℕ} (h : 0 < n) :
    setBits n = splitPoint (n + 1) :: setBits (n - splitPoint (n + 1)) := by
  obtain ⟨k, hk⟩ : ∃ k, Nat.log 2 n = k := ⟨_, rfl⟩
  have hsplit : splitPoint (n + 1) = 2 ^ k := by rw [splitPoint, Nat.add_sub_cancel, hk]
  have hle : 2 ^ k ≤ n := hk ▸ Nat.pow_log_le_self 2 h.ne'
  have hlt : n - 2 ^ k < 2 ^ k := by
    have hbound : n < 2 ^ (k + 1) := hk ▸ Nat.lt_pow_succ_log_self (by norm_num) n
    rw [pow_succ] at hbound
    omega
  have hsorted : ((n - 2 ^ k).bitIndices ++ [k]).SortedLT := by
    refine List.sortedLT_iff_pairwise.2 (List.pairwise_append.2
      ⟨Nat.bitIndices_sorted.pairwise, List.pairwise_singleton _ _, fun i hi j hj => ?_⟩)
    rw [List.mem_singleton.1 hj]
    have hpow := Nat.two_pow_le_of_mem_bitIndices hi
    exact (Nat.pow_lt_pow_iff_right (by norm_num)).1 (hpow.trans_lt hlt)
  have hsum : (((n - 2 ^ k).bitIndices ++ [k]).map (2 ^ ·)).sum = n := by
    simp only [List.map_append, List.sum_append, Nat.sum_map_two_pow_bitIndices]
    simp only [List.map_cons, List.map_nil, List.sum_cons, List.sum_nil]
    omega
  have hbits := Nat.bitIndices_sum_map_two_pow hsorted
  rw [hsum] at hbits
  rw [setBits, hbits, hsplit, setBits]
  simp

/-- The forest holds the subtree of each set bit of the number of leaves. -/
theorem forest_eq_setBits (l : List α) :
    forest node l = ((setBits l.length).splitLengths l).map (tree node) := by
  induction hn : l.length using Nat.strong_induction_on generalizing l with
  | _ n ih =>
    rcases Nat.eq_zero_or_pos n with hzero | hpos
    · have hnil : l = [] := List.eq_nil_of_length_eq_zero (hn.trans hzero)
      simp [hnil, hzero, setBits]
    · have hne : l ≠ [] := List.ne_nil_of_length_pos (hn ▸ hpos)
      have hsplit := splitPoint_pos (n + 1)
      have hrec := ih (n - splitPoint (n + 1)) (by omega) (l.drop (splitPoint (n + 1)))
        (by rw [List.length_drop, hn])
      rw [forest_of_ne node hne, hn, hrec, setBits_of_pos hpos]
      simp [List.splitLengths]

/-- Folding the forest of the closed leaves onto the open node gives the tree of all
leaves, where closing a joined node is the node of the tree. -/
theorem close_foldr_forest {close : β → α} {join : α → α → β}
    (hnode : ∀ a b, node a b = close (join a b)) (l : List α) (x : β) :
    close ((forest node l).foldr (fun a out => join a (close out)) x) =
      tree node (l ++ [close x]) := by
  induction hn : l.length using Nat.strong_induction_on generalizing l with
  | _ n ih =>
    by_cases hnil : l = []
    · simp [hnil, tree_of_le]
    · have hlen := List.length_pos_iff.2 hnil
      have hlt := splitPoint_lt (n := l.length + 1) (by omega)
      have hpos := splitPoint_pos (l.length + 1)
      have htake : (l ++ [close x]).take (splitPoint (l.length + 1)) =
          l.take (splitPoint (l.length + 1)) := List.take_append_of_le_length (by omega)
      have hdrop : (l ++ [close x]).drop (splitPoint (l.length + 1)) =
          l.drop (splitPoint (l.length + 1)) ++ [close x] :=
        List.drop_append_of_le_length (by omega)
      have hrec := ih (l.drop (splitPoint (l.length + 1))).length
        (by rw [List.length_drop]; omega) _ rfl
      have hlong : 1 < (l ++ [close x]).length := by
        rw [List.length_append, List.length_singleton]
        omega
      rw [forest_of_ne node hnil, List.foldr_cons, hrec, tree_of_lt node hlong,
        List.length_append, List.length_singleton, htake, hdrop, hnode]

end Trees

end FrankenSim.Library
