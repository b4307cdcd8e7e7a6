import FrankenSim.Sparse.Orders

/-!
# The supernodes

The columns fall into consecutive runs. In a run every column has the next one as its
parent and the same rows below the run, so that one panel serves all of its columns, and
no run could be longer.
-/
namespace FrankenSim.Sparse

open Library

variable {G : SimpleGraph ℕ} {n : ℕ} {S : Structure}

structure Exact (G : SimpleGraph ℕ) (n : ℕ) (S : Structure) : Prop where
  parent_iff : ∀ j p, S.parent j = some p ↔ IsParent G j p
  sorted : ∀ j, (S.cs j).Pairwise (· < ·)
  mem_iff : ∀ j i, i ∈ S.cs j ↔ Fill G j i
  lt : ∀ i j, G.Adj i j → i < n

/-- The fill of `j` is the next column with its fill. -/
def SharesNext (G : SimpleGraph ℕ) (j : ℕ) : Prop :=
  ∀ i, Fill G j i ↔ i = j + 1 ∨ Fill G (j + 1) i

theorem Exact.fill_lt (h : Exact G n S) {j i : ℕ} (hfill : Fill G j i) : i < n := by
  obtain ⟨-, k, hadj, -⟩ := fill_iff_ancestor.mp hfill
  exact h.lt i k hadj.symm

theorem Exact.cs_eq (h : Exact G n S) {j : ℕ} (hshare : SharesNext G j) :
    S.cs j = (j + 1) :: S.cs (j + 1) := by
  have hsorted : ((j + 1) :: S.cs (j + 1)).Pairwise (· < ·) := by
    refine List.pairwise_cons.mpr ⟨?_, h.sorted (j + 1)⟩
    intro i hi
    exact ((h.mem_iff (j + 1) i).mp hi).1
  have hperm : (S.cs j).Perm ((j + 1) :: S.cs (j + 1)) := by
    apply (List.perm_ext_iff_of_nodup ((h.sorted j).imp Nat.ne_of_lt)
      (hsorted.imp Nat.ne_of_lt)).mpr
    intro i
    rw [h.mem_iff, hshare, List.mem_cons, h.mem_iff]
  exact hperm.eq_of_pairwise (fun a b _ _ hab hba => absurd hab (Nat.lt_asymm hba)) (h.sorted j) hsorted

theorem Exact.joins_iff (h : Exact G n S) {j : ℕ} :
    joins n S.parent S.cs j = true ↔ SharesNext G j := by
  simp only [joins, Bool.and_eq_true, decide_eq_true_eq, beq_iff_eq]
  constructor
  · intro hjoins
    obtain ⟨⟨-, hhead⟩, htail⟩ := hjoins
    have hcs : S.cs j = (j + 1) :: S.cs (j + 1) := by
      rw [← htail]
      exact List.eq_cons_of_mem_head? (by rw [hhead]; rfl)
    intro i
    rw [← h.mem_iff, hcs, List.mem_cons, h.mem_iff]
  · intro hshare
    have hfill : Fill G j (j + 1) := (hshare (j + 1)).mpr (Or.inl rfl)
    have hcs := h.cs_eq hshare
    refine ⟨⟨⟨⟨h.fill_lt hfill, ?_⟩, ?_⟩, ?_⟩, ?_⟩
    · rw [h.parent_iff]
      exact ⟨hfill, fun i hi => hi.1⟩
    · rw [hcs]
      rfl
    · rw [hcs]
      rfl
    · rw [hcs]
      rfl

/-- A run ends where the next column cannot join. -/
theorem Exact.extendRun_spec (h : Exact G n S) {fuel j : ℕ} (hfuel : n ≤ j + fuel) (hj : j < n) :
    j ≤ extendRun n S.parent S.cs fuel j ∧ extendRun n S.parent S.cs fuel j < n ∧
      (∀ c, j ≤ c → c < extendRun n S.parent S.cs fuel j → SharesNext G c) ∧
      ¬ SharesNext G (extendRun n S.parent S.cs fuel j) := by
  induction fuel generalizing j with
  | zero => omega
  | succ fuel ih =>
    rw [extendRun]
    by_cases hjoins : joins n S.parent S.cs j = true
    · have hshare := h.joins_iff.mp hjoins
      have hnext : j + 1 < n := h.fill_lt ((hshare (j + 1)).mpr (Or.inl rfl))
      obtain ⟨hle, hlt, hruns, hends⟩ := ih (j := j + 1) (by omega) hnext
      rw [if_pos hjoins]
      refine ⟨Nat.le_of_succ_le hle, hlt, ?_, hends⟩
      intro c hjc hc
      cases Nat.lt_or_eq_of_le hjc with
      | inl hlt => exact hruns c hlt hc
      | inr heq => exact heq ▸ hshare
    · rw [if_neg hjoins]
      refine ⟨Nat.le_refl j, hj, ?_, ?_⟩
      · intro c hjc hc
        exact absurd hc (Nat.not_lt_of_le hjc)
      · exact fun hshare => hjoins (h.joins_iff.mpr hshare)

/-- The structure of the first column of a run lists the run and then the panel. -/
theorem Exact.cs_run (h : Exact G n S) {j : ℕ} (m : ℕ)
    (hrun : ∀ c, j ≤ c → c < j + m → SharesNext G c) :
    S.cs j = List.range' (j + 1) m ++ S.cs (j + m) := by
  induction m with
  | zero => rfl
  | succ m ih =>
    rw [ih fun c hjc hc => hrun c hjc (Nat.lt_succ_of_lt hc),
      h.cs_eq (hrun (j + m) (Nat.le_add_right j m) (Nat.lt_succ_self _)),
      List.range'_concat, List.append_assoc, List.singleton_append]
    congr 2
    omega

structure IsRun (G : SimpleGraph ℕ) (S : Structure) (node : SnodeSym) : Prop where
  width_pos : 0 < node.width
  shares : ∀ c, node.colStart ≤ c → c + 1 < node.colStart + node.width → SharesNext G c
  ends : ¬ SharesNext G (node.colStart + node.width - 1)
  panel_eq : node.panel = S.cs (node.colStart + node.width - 1)

def SnodeSym.Holds (node : SnodeSym) (c : ℕ) : Prop :=
  node.colStart ≤ c ∧ c < node.colStart + node.width

/-- The runs found so far cover the columns before `j`. -/
structure Tiled (G : SimpleGraph ℕ) (S : Structure) (j : ℕ) (found : Supernodes) : Prop where
  runs : ∀ node ∈ found.snodes, IsRun G S node
  starts : ∀ id node, found.snodes[id]? = some node →
    node.colStart = ((found.snodes.take id).map SnodeSym.width).sum
  total : (found.snodes.map SnodeSym.width).sum = j
  snodeOf_iff : ∀ c id, found.snodeOf c = some id ↔
    ∃ node, found.snodes[id]? = some node ∧ node.Holds c
  unplaced : ∀ node ∈ found.snodes, node.parent = none ∧ node.children = []

theorem Tiled.le_total {j : ℕ} {found : Supernodes} (h : Tiled G S j found) {id : ℕ}
    {node : SnodeSym} (hnode : found.snodes[id]? = some node) :
    node.colStart + node.width ≤ j := by
  have hid := (List.getElem?_eq_some_iff.mp hnode).1
  have hsplit := List.take_append_drop (id + 1) found.snodes
  have htake : found.snodes.take (id + 1) = found.snodes.take id ++ [node] := by
    rw [List.take_add_one, hnode]
    rfl
  rw [← h.total, h.starts id node hnode, ← hsplit, htake]
  simp only [List.map_append, List.sum_append, List.map_cons, List.map_nil, List.sum_singleton]
  have htake' : (found.snodes.take id ++ [node] ++ found.snodes.drop (id + 1)).take id =
      found.snodes.take id := by
    rw [← htake, hsplit]
  rw [htake']
  exact Nat.le_add_right _ _

theorem Tiled.push {j : ℕ} {found : Supernodes} (h : Tiled G S j found) {node : SnodeSym}
    (hrun : IsRun G S node) (hstart : node.colStart = j)
    (hplace : node.parent = none ∧ node.children = []) :
    Tiled G S (j + node.width) ⟨found.snodes ++ [node],
      (List.range' j node.width).foldl (fun snodeOf c => put snodeOf c (some found.snodes.length))
        found.snodeOf⟩ := by
  have hget : ∀ id node', (found.snodes ++ [node])[id]? = some node' ↔
      found.snodes[id]? = some node' ∨ id = found.snodes.length ∧ node' = node := by
    intro id node'
    obtain hlt | heq | hgt := Nat.lt_trichotomy id found.snodes.length
    · rw [List.getElem?_append_left hlt]
      simp [Nat.ne_of_lt hlt]
    · subst heq
      rw [List.getElem?_append_right (Nat.le_refl _), Nat.sub_self]
      simp [eq_comm]
    · rw [List.getElem?_eq_none (by simpa using hgt),
        List.getElem?_eq_none (Nat.le_of_lt hgt)]
      simp [Nat.ne_of_gt hgt]
  constructor
  case runs =>
    intro node' hnode'
    cases List.mem_append.mp hnode' with
    | inl hold => exact h.runs node' hold
    | inr hnew => exact List.mem_singleton.mp hnew ▸ hrun
  case starts =>
    intro id node' hnode'
    cases (hget id node').mp hnode' with
    | inl hold =>
      have hid := (List.getElem?_eq_some_iff.mp hold).1
      rw [List.take_append_of_le_length (Nat.le_of_lt hid)]
      exact h.starts id node' hold
    | inr hnew =>
      rw [hnew.1, hnew.2, List.take_left, h.total]
      exact hstart
  case total =>
    rw [List.map_append, List.sum_append, h.total]
    rfl
  case snodeOf_iff =>
    intro c id
    dsimp only
    rw [foldl_put]
    have hnew : c ∈ List.range' j node.width ↔ node.Holds c := by
      rw [List.mem_range'_1, SnodeSym.Holds, hstart]
    have hold : ∀ (id : ℕ) (node' : SnodeSym), found.snodes[id]? = some node' → node'.Holds c →
        ¬ node.Holds c := by
      intro id node' hnode' hc hc'
      have hle := h.le_total hnode'
      rw [SnodeSym.Holds] at hc hc'
      omega
    simp only [hget]
    by_cases hc : node.Holds c
    · rw [if_pos (hnew.mpr hc), Option.some.injEq]
      constructor
      · exact fun hid => ⟨node, Or.inr ⟨hid.symm, rfl⟩, hc⟩
      · intro hex
        obtain ⟨node', hnode' | hnode', hc'⟩ := hex
        · exact absurd hc (hold id node' hnode' hc')
        · exact hnode'.1.symm
    · rw [if_neg fun hmem => hc (hnew.mp hmem), h.snodeOf_iff]
      constructor
      · intro hex
        obtain ⟨node', hnode', hc'⟩ := hex
        exact ⟨node', Or.inl hnode', hc'⟩
      · intro hex
        obtain ⟨node', hnode' | hnode', hc'⟩ := hex
        · exact ⟨node', hnode', hc'⟩
        · exact absurd (hnode'.2 ▸ hc') hc
  case unplaced =>
    intro node' hnode'
    cases List.mem_append.mp hnode' with
    | inl hold => exact h.unplaced node' hold
    | inr hnew => exact List.mem_singleton.mp hnew ▸ hplace

/-- The partition finds its runs and reaches the last column. -/
theorem Exact.partitionColumns_eq (h : Exact G n S) {fuel j : ℕ} {found : Supernodes}
    (hfound : Tiled G S j found) (hj : j ≤ n) (hfuel : n < j + fuel) :
    ∃ found', partitionColumns n S.parent S.cs fuel j found = some found' ∧
      Tiled G S n found' := by
  induction fuel generalizing j found with
  | zero => omega
  | succ fuel ih =>
    rw [partitionColumns]
    by_cases hlt : j < n
    · rw [if_pos hlt]
      obtain ⟨hle, hlast, hruns, hends⟩ := h.extendRun_spec (Nat.le_add_left n j) hlt
      generalize extendRun n S.parent S.cs n j = last at hle hlast hruns hends ⊢
      obtain ⟨m, rfl⟩ := Nat.exists_eq_add_of_le hle
      have hcs := h.cs_run m hruns
      have hpanel : span (j + m - j + 1 - 1) (S.cs j).length (S.cs j) = some (S.cs (j + m)) := by
        have hm : j + m - j + 1 - 1 = (List.range' (j + 1) m).length := by
          rw [List.length_range']
          omega
        rw [span, if_pos]
        · rw [hm, hcs, List.drop_left, List.length_append, Nat.add_sub_cancel_left, List.take_length]
        · rw [hm, hcs, List.length_append]
          exact ⟨Nat.le_add_right _ _, Nat.le_refl _⟩
      have hwidth : j + m - j + 1 = m + 1 := by omega
      have hend : j + (m + 1) - 1 = j + m := by omega
      have hrun : IsRun G S ⟨j, m + 1, S.cs (j + m), none, []⟩ := by
        constructor
        case width_pos => exact Nat.succ_pos m
        case shares =>
          intro c hjc hc
          exact hruns c hjc (Nat.lt_of_succ_lt_succ hc)
        case ends =>
          dsimp only
          rw [hend]
          exact hends
        case panel_eq =>
          dsimp only
          rw [hend]
      obtain ⟨found', hrest, htiled⟩ :=
        ih (hfound.push hrun rfl ⟨rfl, rfl⟩) hlast (by dsimp only; omega)
      refine ⟨found', ?_, htiled⟩
      dsimp only
      rw [hpanel, hwidth]
      exact hrest
    · rw [if_neg hlt]
      obtain rfl : j = n := Nat.le_antisymm hj (Nat.le_of_not_lt hlt)
      exact ⟨found, rfl, hfound⟩

theorem tiled_nil : Tiled G S 0 ⟨[], fun _ => none⟩ := by
  constructor
  case runs => exact fun node hnode => absurd hnode List.not_mem_nil
  case starts =>
    intro id node hnode
    rw [List.getElem?_nil] at hnode
    cases hnode
  case total => rfl
  case snodeOf_iff =>
    intro c id
    simp
  case unplaced => exact fun node hnode => absurd hnode List.not_mem_nil

theorem Tiled.exists_snodeOf {found : Supernodes} (h : Tiled G S n found) {c : ℕ} (hc : c < n) :
    ∃ id, found.snodeOf c = some id := by
  have hsearch : ∀ k ≤ found.snodes.length, c < ((found.snodes.take k).map SnodeSym.width).sum →
      ∃ id, found.snodeOf c = some id := by
    intro k
    induction k with
    | zero =>
      intro _ hlt
      exact absurd hlt (Nat.not_lt_zero c)
    | succ k ih =>
      intro hk hlt
      obtain hbefore | hfrom := Nat.lt_or_ge c ((found.snodes.take k).map SnodeSym.width).sum
      · exact ih (Nat.le_of_succ_le hk) hbefore
      · have hnode := List.getElem?_eq_getElem hk
        rw [List.take_add_one, hnode] at hlt
        simp only [Option.toList_some, List.map_append, List.sum_append, List.map_cons,
          List.map_nil, List.sum_singleton] at hlt
        have hstart := h.starts k _ hnode
        exact ⟨k, (h.snodeOf_iff c k).mpr ⟨_, hnode, hstart ▸ hfrom, hstart ▸ hlt⟩⟩
  apply hsearch found.snodes.length (Nat.le_refl _)
  rw [List.take_length, h.total]
  exact hc

end FrankenSim.Sparse
