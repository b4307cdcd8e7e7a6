import FrankenSim.Sparse.Adjacency
import FrankenSim.Sparse.EliminationForest

/-!
# The postorder

Emptying the stack lists every tree of the forest once, each vertex right after what is
below it. The result is a permutation in which the vertices below any vertex form a block
that ends with it.
-/
namespace FrankenSim.Sparse

open Library

variable {G : SimpleGraph ℕ} {n : ℕ} {parent : ℕ → Option ℕ}

/-- Every entry ends a block of the vertices below it. -/
def PostList (G : SimpleGraph ℕ) (l : List ℕ) : Prop :=
  ∀ w ∈ l, ∃ front block back, l = front ++ (block ++ [w]) ++ back ∧
    ∀ u, u ∈ block ++ [w] ↔ Ancestor G u w

theorem PostList.append {l l' : List ℕ} (h : PostList G l) (h' : PostList G l') :
    PostList G (l ++ l') := by
  intro w hw
  cases List.mem_append.mp hw with
  | inl hw =>
    obtain ⟨front, block, back, rfl, hblock⟩ := h w hw
    refine ⟨front, block, back ++ l', ?_, hblock⟩
    rw [List.append_assoc]
  | inr hw =>
    obtain ⟨front, block, back, rfl, hblock⟩ := h' w hw
    refine ⟨l ++ front, block, back, ?_, hblock⟩
    simp only [List.append_assoc]

theorem PostList.concat {l : List ℕ} {v : ℕ} (h : PostList G l)
    (hv : ∀ u, u ∈ l ++ [v] ↔ Ancestor G u v) : PostList G (l ++ [v]) := by
  intro w hw
  cases List.mem_append.mp hw with
  | inl hw =>
    obtain ⟨front, block, back, rfl, hblock⟩ := h w hw
    refine ⟨front, block, back ++ [v], ?_, hblock⟩
    rw [List.append_assoc]
  | inr hw =>
    obtain rfl := List.mem_singleton.mp hw
    exact ⟨[], l, [], by simp, hv⟩

theorem foldl_sprout (k : ℕ) :
    let found := (List.range k).foldl (sprout parent) ([], fun _ => [])
    (found.1.Pairwise (· < ·) ∧ ∀ j, j ∈ found.1 ↔ j < k ∧ parent j = none) ∧
      ∀ p, (found.2 p).Pairwise (· < ·) ∧ ∀ j, j ∈ found.2 p ↔ j < k ∧ parent j = some p := by
  induction k with
  | zero => simp
  | succ k ih =>
    have hpush : ∀ (l : List ℕ) (P : ℕ → Prop), l.Pairwise (· < ·) → (∀ j, j ∈ l ↔ j < k ∧ P j) →
        P k → (l ++ [k]).Pairwise (· < ·) ∧ ∀ j, j ∈ l ++ [k] ↔ j < k + 1 ∧ P j := by
      intro l P hl hmem hk
      constructor
      · rw [List.pairwise_append]
        refine ⟨hl, List.pairwise_singleton _ _, ?_⟩
        intro a ha b hb
        rw [List.mem_singleton.mp hb]
        exact ((hmem a).mp ha).1
      · intro j
        rw [List.mem_append, hmem, List.mem_singleton, Nat.lt_succ_iff_lt_or_eq]
        constructor
        · intro h
          cases h with
          | inl h => exact ⟨Or.inl h.1, h.2⟩
          | inr h => exact ⟨Or.inr h, h ▸ hk⟩
        · intro h
          cases h.1 with
          | inl hlt => exact Or.inl ⟨hlt, h.2⟩
          | inr heq => exact Or.inr heq
    have hkeep : ∀ (l : List ℕ) (P : ℕ → Prop), (∀ j, j ∈ l ↔ j < k ∧ P j) → ¬ P k →
        ∀ j, j ∈ l ↔ j < k + 1 ∧ P j := by
      intro l P hmem hk j
      rw [hmem, Nat.lt_succ_iff_lt_or_eq]
      constructor
      · exact fun h => ⟨Or.inl h.1, h.2⟩
      · intro h
        cases h.1 with
        | inl hlt => exact ⟨hlt, h.2⟩
        | inr heq => exact absurd (heq ▸ h.2) hk
    dsimp only at ih ⊢
    rw [List.range_succ, List.foldl_concat]
    generalize (List.range k).foldl (sprout parent) ([], fun _ => []) = found at ih ⊢
    obtain ⟨⟨hroots, hrootmem⟩, hchildren⟩ := ih
    cases hparent : parent k with
    | none =>
      rw [sprout, hparent]
      refine ⟨hpush found.1 (fun j => parent j = none) hroots hrootmem hparent, ?_⟩
      intro p
      refine ⟨(hchildren p).1, hkeep _ (fun j => parent j = some p) (hchildren p).2 ?_⟩
      rw [hparent]
      exact (Option.some_ne_none p).symm
    | some q =>
      rw [sprout, hparent]
      refine ⟨⟨hroots, hkeep _ (fun j => parent j = none) hrootmem ?_⟩, ?_⟩
      · rw [hparent]
        exact Option.some_ne_none q
      · intro p
        dsimp only
        by_cases hpq : p = q
        · subst hpq
          rw [push_self]
          exact hpush _ (fun j => parent j = some p) (hchildren p).1 (hchildren p).2 hparent
        · rw [push_of_ne hpq]
          refine ⟨(hchildren p).1, hkeep _ (fun j => parent j = some p) (hchildren p).2 ?_⟩
          rw [hparent]
          exact fun h => hpq (Option.some.inj h).symm

/-- Trees below different vertices do not meet when neither is above the other. -/
theorem disjoint_of_not_ancestor {u c c' : ℕ} (h : Ancestor G u c) (h' : Ancestor G u c')
    (hne : ¬ Ancestor G c c') (hne' : ¬ Ancestor G c' c) : False := by
  cases Ancestor.comparable h h' with
  | inl hcc => exact hne hcc
  | inr hcc => exact hne' hcc

section Trees

variable {children : ℕ → List ℕ}

/-- The tree at `v` is emptied from the stack in twice its size, less one, steps. -/
def Lists (G : SimpleGraph ℕ) (children : ℕ → List ℕ) (v : ℕ) (tree : List ℕ) : Prop :=
  (∀ fuel stack post, postLoop children (fuel + (2 * tree.length - 1)) ((v, 0) :: stack) post =
    postLoop children fuel stack (post ++ tree)) ∧
  tree ≠ [] ∧ tree.Nodup ∧ (∀ u, u ∈ tree ↔ Ancestor G u v) ∧ PostList G tree

theorem exists_rest {v : ℕ} (hsorted : (children v).Pairwise (· < ·))
    (hchildren : ∀ c ∈ children v, IsParent G c v ∧ ∃ tree, Lists G children c tree)
    (rest : List ℕ) (k : ℕ) (hrest : (children v).drop k = rest) :
    ∃ trees : List ℕ, (∀ fuel stack post,
        postLoop children (fuel + (2 * trees.length + 1)) ((v, k) :: stack) post =
          postLoop children fuel stack (post ++ (trees ++ [v]))) ∧
      trees.Nodup ∧ (∀ u, u ∈ trees ↔ ∃ c ∈ rest, Ancestor G u c) ∧ PostList G trees := by
  induction rest generalizing k with
  | nil =>
    refine ⟨[], ?_, List.nodup_nil, by simp, fun w hw => absurd hw List.not_mem_nil⟩
    intro fuel stack post
    have hnone : (children v)[k]? = none := by
      rw [List.getElem?_eq_none_iff]
      exact List.drop_eq_nil_iff.mp hrest
    change postLoop children (fuel + 1) _ _ = _
    rw [postLoop, hnone]
    rfl
  | cons c rest ih =>
    have hget : (children v)[k]? = some c := by
      rw [← List.head?_drop, hrest]
      rfl
    have hdrop : (children v).drop (k + 1) = rest := by
      rw [← List.tail_drop, hrest]
      rfl
    have hmemc : c ∈ children v := List.mem_of_getElem? hget
    have hmem : ∀ d ∈ rest, d ∈ children v := by
      intro d hd
      rw [← hdrop] at hd
      exact List.mem_of_mem_drop hd
    have hlater : ∀ d ∈ rest, c < d := by
      have hpairs := hsorted.sublist (List.drop_sublist k _)
      rw [hrest] at hpairs
      exact (List.pairwise_cons.mp hpairs).1
    obtain ⟨hc, tree, hloop, hne, hnodup, htree, hpost⟩ := hchildren c hmemc
    obtain ⟨trees, hrestloop, hnodup', htrees, hpost'⟩ := ih (k + 1) hdrop
    refine ⟨tree ++ trees, ?_, ?_, ?_, hpost.append hpost'⟩
    · intro fuel stack post
      have hlength := List.length_pos_iff.mpr hne
      have hfuel : fuel + (2 * (tree ++ trees).length + 1) =
          fuel + (2 * trees.length + 1) + (2 * tree.length - 1) + 1 := by
        rw [List.length_append]
        omega
      rw [hfuel, postLoop, hget]
      dsimp only
      rw [hloop, hrestloop, List.append_assoc, List.append_assoc]
    · refine List.nodup_append.mpr ⟨hnodup, hnodup', ?_⟩
      intro a ha b hb hab
      subst hab
      obtain ⟨d, hd, had⟩ := (htrees a).mp hb
      have hdv := (hchildren d (hmem d hd)).1
      have heq := unique_of_parent ((htree a).mp ha) hc had hdv
      exact Nat.lt_irrefl c (heq ▸ hlater d hd)
    · intro u
      rw [List.mem_append, htree, htrees]
      simp

theorem exists_lists (hsorted : ∀ v, (children v).Pairwise (· < ·))
    (hchildren : ∀ v c, c ∈ children v ↔ IsParent G c v) (v : ℕ) :
    ∃ tree, Lists G children v tree := by
  induction v using Nat.strong_induction_on with
  | _ v ih =>
    have hbelow : ∀ c ∈ children v, IsParent G c v ∧ ∃ tree, Lists G children c tree := by
      intro c hc
      have hparent := (hchildren v c).mp hc
      exact ⟨hparent, ih c hparent.lt⟩
    obtain ⟨trees, hloop, hnodup, hmem, hpost⟩ :=
      exists_rest (hsorted v) hbelow (children v) 0 (List.drop_zero)
    have hall : ∀ u, u ∈ trees ++ [v] ↔ Ancestor G u v := by
      intro u
      rw [List.mem_append, List.mem_singleton, hmem]
      constructor
      · intro hu
        obtain ⟨c, hc, huc⟩ | rfl := hu
        · exact huc.tail ((hchildren v c).mp hc)
        · exact Relation.ReflTransGen.refl
      · intro hu
        obtain heq | ⟨c, huc, hcv⟩ := Relation.ReflTransGen.cases_tail hu
        · exact Or.inr heq.symm
        · exact Or.inl ⟨c, (hchildren v c).mpr hcv, huc⟩
    refine ⟨trees ++ [v], ?_, List.append_ne_nil_of_right_ne_nil _ (List.cons_ne_nil _ _), ?_,
      hall, hpost.concat hall⟩
    · intro fuel stack post
      have hfuel : 2 * (trees ++ [v]).length - 1 = 2 * trees.length + 1 := by
        rw [List.length_append, List.length_singleton]
        omega
      rw [hfuel, hloop]
    · refine List.nodup_append.mpr ⟨hnodup, List.nodup_singleton v, ?_⟩
      intro a ha b hb hab
      rw [List.mem_singleton.mp hb] at hab
      subst hab
      obtain ⟨c, hc, hac⟩ := (hmem a).mp ha
      exact Nat.not_le_of_lt ((hchildren a c).mp hc).lt (Ancestor.le hac)

end Trees

theorem exists_root (hparent : ∀ j p, parent j = some p ↔ IsParent G j p)
    (hlt : ∀ j p, parent j = some p → p < n) {j : ℕ} (hj : j < n) :
    ∃ r < n, Ancestor G j r ∧ parent r = none := by
  induction hd : n - j using Nat.strong_induction_on generalizing j with
  | _ d ih =>
    cases hp : parent j with
    | none => exact ⟨j, hj, Relation.ReflTransGen.refl, hp⟩
    | some p =>
      have hup := ((hparent j p).mp hp).lt
      have hpn := hlt j p hp
      obtain ⟨r, hr, hpr, hroot⟩ := ih (n - p) (by omega) hpn rfl
      exact ⟨r, hr, Relation.ReflTransGen.head ((hparent j p).mp hp) hpr, hroot⟩

/-- The postorder is a permutation and every vertex ends the block of what is below it. -/
theorem postorder_eq (hparent : ∀ j p, parent j = some p ↔ IsParent G j p)
    (hlt : ∀ j p, parent j = some p → p < n) :
    ∃ post, postorder n parent = some post ∧ post.Perm (List.range n) ∧ PostList G post := by
  obtain ⟨⟨hroots, hrootmem⟩, hchildren⟩ := @foldl_sprout parent n
  rw [postorder]
  generalize (List.range n).foldl (sprout parent) ([], fun _ => []) = found at *
  have hmem : ∀ v c, c ∈ found.2 v ↔ IsParent G c v := by
    intro v c
    rw [(hchildren v).2, hparent, and_iff_right_iff_imp]
    intro hp
    exact Nat.lt_trans hp.lt (hlt c v ((hparent c v).mpr hp))
  have hloop : ∀ rs : List ℕ, rs.Pairwise (· < ·) → (∀ r ∈ rs, r < n ∧ parent r = none) →
      ∀ post, ∃ trees, rs.foldlM (fun post r => postLoop found.2 (2 * n + 1) [(r, 0)] post) post =
        some (post ++ trees) ∧ trees.Nodup ∧ (∀ u, u ∈ trees ↔ ∃ r ∈ rs, Ancestor G u r) ∧
        PostList G trees := by
    intro rs
    induction rs with
    | nil =>
      intro _ _ post
      refine ⟨[], ?_, List.nodup_nil, by simp, fun w hw => absurd hw List.not_mem_nil⟩
      rw [List.append_nil]
      rfl
    | cons r rs ih =>
      intro hsorted hrs post
      obtain ⟨hlater, hsorted⟩ := List.pairwise_cons.mp hsorted
      obtain ⟨tree, hlists, hne, hnodup, htree, hpost⟩ :=
        exists_lists (fun v => (hchildren v).1) hmem r
      obtain ⟨trees, hrun, hnodup', htrees, hpost'⟩ :=
        ih hsorted (fun r hr => hrs r (List.mem_cons_of_mem _ hr)) (post ++ tree)
      have hroot := hrs r List.mem_cons_self
      have hsize : tree.length ≤ n := by
        have hsub : tree ⊆ List.range n := by
          intro u hu
          exact List.mem_range.mpr
            (Nat.lt_of_le_of_lt (Ancestor.le ((htree u).mp hu)) hroot.1)
        have hle := (List.subperm_of_subset hnodup hsub).length_le
        rwa [List.length_range] at hle
      refine ⟨tree ++ trees, ?_, ?_, ?_, hpost.append hpost'⟩
      · have hlength := List.length_pos_iff.mpr hne
        have hfuel : 2 * n + 1 = (2 * (n - tree.length) + 1) + 1 + (2 * tree.length - 1) := by omega
        have hfirst : postLoop found.2 (2 * n + 1) [(r, 0)] post = some (post ++ tree) := by
          rw [hfuel, hlists, postLoop]
        rw [List.foldlM_cons, hfirst, ← List.append_assoc]
        exact hrun
      · refine List.nodup_append.mpr ⟨hnodup, hnodup', ?_⟩
        intro a ha b hb hab
        subst hab
        obtain ⟨r', hr', har'⟩ := (htrees a).mp hb
        have htop : ∀ r s, parent r = none → r ≠ s → ¬ Ancestor G r s := by
          intro r s hr hrs hanc
          obtain heq | ⟨p, hp, -⟩ := Relation.ReflTransGen.cases_head hanc
          · exact hrs heq
          · rw [(hparent r p).mpr hp] at hr
            cases hr
        have hrr' : r ≠ r' := Nat.ne_of_lt (hlater r' hr')
        exact disjoint_of_not_ancestor ((htree a).mp ha) har' (htop r r' hroot.2 hrr')
          (htop r' r (hrs r' (List.mem_cons_of_mem _ hr')).2 hrr'.symm)
      · intro u
        rw [List.mem_append, htree, htrees]
        simp
  obtain ⟨trees, hrun, hnodup, htrees, hpost⟩ :=
    hloop found.1 hroots (fun r hr => (hrootmem r).mp hr) []
  refine ⟨trees, hrun, ?_, hpost⟩
  apply (List.perm_ext_iff_of_nodup hnodup List.nodup_range).mpr
  intro u
  rw [htrees, List.mem_range]
  constructor
  · intro hu
    obtain ⟨r, hr, hur⟩ := hu
    exact Nat.lt_of_le_of_lt (Ancestor.le hur) ((hrootmem r).mp hr).1
  · intro hu
    obtain ⟨r, hr, hur, hroot⟩ := exists_root hparent hlt hu
    exact ⟨r, (hrootmem r).mpr ⟨hr, hroot⟩, hur⟩

end FrankenSim.Sparse
