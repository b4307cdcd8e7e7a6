import FrankenSim.Library.EliminationTree
import FrankenSim.Sparse.Symbolic

/-!
# The elimination tree with path compression

Row by row the roots above the neighbours of a vertex become its children. The shortcuts
always lead to ancestors and an unlinked root has none, so that a climb ends at the root
above its start or below a vertex that was linked in this row. In the end the parents are
those of the elimination tree.
-/
namespace FrankenSim.Sparse

open Library

variable {G : SimpleGraph ℕ} {n i j t : ℕ} {js : List ℕ}

theorem Ancestor.le_parent {r : ℕ} (ht : IsParent G t i) (hr : IsParent G r i)
    (h : Ancestor G t r) : t = r := by
  by_contra hne
  have hle := (h.of_parent ht hne).le
  exact Nat.not_lt_of_le hle hr.lt

/-- On the path from a vertex one vertex at most has the parent `i`. -/
theorem unique_of_parent {r : ℕ} (ht : Ancestor G j t) (hti : IsParent G t i)
    (hr : Ancestor G j r) (hri : IsParent G r i) : t = r := by
  cases Ancestor.comparable ht hr with
  | inl h => exact Ancestor.le_parent hti hri h
  | inr h => exact (Ancestor.le_parent hri hti h).symm

/-- The forest in row `i` after the neighbours `js`. -/
structure Grown (G : SimpleGraph ℕ) (i : ℕ) (js : List ℕ) (forest : Forest) : Prop where
  parent_iff : ∀ t p, forest.parent t = some p ↔
    IsParent G t p ∧ (p < i ∨ p = i ∧ ∃ j ∈ js, Ancestor G j t)
  ancestor_none : ∀ t, forest.ancestor t = none ↔ forest.parent t = none
  ancestor_some : ∀ t a, forest.ancestor t = some a → Ancestor G t a ∧ t < a ∧ a ≤ i
  ancestor_linked : ∀ t, forest.ancestor t = some i →
    ∃ r, Ancestor G t r ∧ forest.parent r = some i

structure Climbed (G : SimpleGraph ℕ) (i t top : ℕ) (ancestor ancestor' : ℕ → Option ℕ) :
    Prop where
  reaches : Ancestor G t top
  below : top < i
  at_top : ancestor' top = ancestor top
  stops : ancestor top = none ∨ ancestor top = some i
  changes : ∀ s, ancestor' s = ancestor s ∨
    ancestor' s = some i ∧ ancestor s ≠ none ∧ Ancestor G t s ∧ Ancestor G s top ∧ s < i

/-- The shortcuts end the climb before the bound. -/
theorem exists_climb {ancestor : ℕ → Option ℕ} {fuel : ℕ}
    (hsome : ∀ t a, ancestor t = some a → Ancestor G t a ∧ t < a ∧ a ≤ i)
    (ht : Ancestor G t i) (hlt : t < i) (hfuel : i - t ≤ fuel) :
    ∃ ancestor' top, climb i fuel ancestor t = some (ancestor', top) ∧
      Climbed G i t top ancestor ancestor' := by
  induction fuel generalizing ancestor t with
  | zero => omega
  | succ fuel ih =>
    rw [climb]
    cases hnext : ancestor t with
    | none =>
      refine ⟨ancestor, t, rfl, Relation.ReflTransGen.refl, hlt, rfl, Or.inl hnext, ?_⟩
      exact fun s => Or.inl rfl
    | some next =>
      obtain ⟨hanc, hup, hle⟩ := hsome t next hnext
      by_cases hi : next = i
      · refine ⟨ancestor, t, if_pos hi, Relation.ReflTransGen.refl, hlt, rfl, Or.inr ?_, ?_⟩
        · rw [hnext, hi]
        · exact fun s => Or.inl rfl
      · have hbelow : next < i := Nat.lt_of_le_of_ne hle hi
        have hnexti : Ancestor G next i := by
          cases Ancestor.comparable hanc ht with
          | inl h => exact h
          | inr h => exact absurd h.le (Nat.not_le_of_lt hbelow)
        have hsome' : ∀ s a, put ancestor t (some i) s = some a →
            Ancestor G s a ∧ s < a ∧ a ≤ i := by
          intro s a hs
          by_cases hst : s = t
          · subst hst
            rw [put, Function.update_self] at hs
            cases hs
            exact ⟨ht, hlt, Nat.le_refl _⟩
          · rw [put, Function.update_of_ne hst] at hs
            exact hsome s a hs
        obtain ⟨ancestor', top, hclimb, h⟩ := ih hsome' hnexti hbelow (by omega)
        have htop : top ≠ t := by
          have := h.reaches.le
          omega
        have hold : put ancestor t (some i) top = ancestor top := Function.update_of_ne htop _ _
        refine ⟨ancestor', top, ?_, ?_⟩
        · dsimp only
          rw [if_neg hi]
          exact hclimb
        · exact {
            reaches := hanc.trans h.reaches
            below := h.below
            at_top := h.at_top.trans hold
            stops := hold ▸ h.stops
            changes := by
              intro s
              by_cases hst : s = t
              · subst hst
                have hsi : ancestor' s = some i := by
                  cases h.changes s with
                  | inl hsame => rw [hsame, put, Function.update_self]
                  | inr hchanged => exact hchanged.1
                refine Or.inr ⟨hsi, ?_, Relation.ReflTransGen.refl, hanc.trans h.reaches, hlt⟩
                rw [hnext]
                exact Option.some_ne_none next
              · have hs : put ancestor t (some i) s = ancestor s := Function.update_of_ne hst _ _
                have hchanges := h.changes s
                rw [hs] at hchanges
                cases hchanges with
                | inl hsame => exact Or.inl hsame
                | inr hchanged =>
                  obtain ⟨hsi, hne, hreach, htop, hlt⟩ := hchanged
                  exact Or.inr ⟨hsi, hne, hanc.trans hreach, htop, hlt⟩ }

/-- The neighbour `j` adds the vertex of its path whose parent is `i`. -/
theorem parent_concat_iff {r : ℕ} (hjr : Ancestor G j r) (hri : IsParent G r i) (t p : ℕ) :
    IsParent G t p ∧ (p < i ∨ p = i ∧ ∃ k ∈ js ++ [j], Ancestor G k t) ↔
      (IsParent G t p ∧ (p < i ∨ p = i ∧ ∃ k ∈ js, Ancestor G k t)) ∨ t = r ∧ p = i := by
  constructor
  · intro hright
    obtain ⟨htp, hlt | ⟨rfl, k, hk, hkt⟩⟩ := hright
    · exact Or.inl ⟨htp, Or.inl hlt⟩
    · obtain hk | hk := List.mem_append.mp hk
      · exact Or.inl ⟨htp, Or.inr ⟨rfl, k, hk, hkt⟩⟩
      · rw [List.mem_singleton.mp hk] at hkt
        exact Or.inr ⟨unique_of_parent hkt htp hjr hri, rfl⟩
  · intro hleft
    obtain ⟨htp, hlt | ⟨rfl, k, hk, hkt⟩⟩ | ⟨rfl, rfl⟩ := hleft
    · exact ⟨htp, Or.inl hlt⟩
    · exact ⟨htp, Or.inr ⟨rfl, k, List.mem_append_left _ hk, hkt⟩⟩
    · exact ⟨hri, Or.inr ⟨rfl, j, List.mem_append_right _ (List.mem_singleton_self j), hjr⟩⟩

section Link

variable {forest : Forest} {ancestor' : ℕ → Option ℕ} {top : ℕ}

theorem Climbed.top_ancestor {ancestor : ℕ → Option ℕ} (hc : Climbed G i j top ancestor ancestor')
    (hj : Fill G j i) : Ancestor G top i := by
  cases Ancestor.comparable hc.reaches hj.ancestor with
  | inl hup => exact hup
  | inr hup => exact absurd (Ancestor.le hup) (Nat.not_le_of_lt hc.below)

/-- An unlinked root above an earlier neighbour of `i` is a child of `i`. -/
theorem Grown.isParent_top (h : Grown G i js forest)
    (hc : Climbed G i j top forest.ancestor ancestor') (hj : Fill G j i)
    (hnone : forest.ancestor top = none) : IsParent G top i := by
  obtain heq | ⟨p, hp, hpi⟩ := Relation.ReflTransGen.cases_head (hc.top_ancestor hj)
  · exact absurd heq (Nat.ne_of_lt hc.below)
  · obtain hlt | heq := Nat.lt_or_eq_of_le (Ancestor.le hpi)
    · have hsome := (h.parent_iff top p).mpr ⟨hp, Or.inl hlt⟩
      rw [(h.ancestor_none top).mp hnone] at hsome
      cases hsome
    · exact heq ▸ hp

theorem Grown.link_root (h : Grown G i js forest)
    (hc : Climbed G i j top forest.ancestor ancestor') (hj : Fill G j i)
    (hnone : forest.ancestor top = none) :
    Grown G i (js ++ [j]) ⟨put forest.parent top (some i), put ancestor' top (some i)⟩ := by
  have htopi := hc.top_ancestor hj
  have htop := h.isParent_top hc hj hnone
  have hput : ∀ t, t ≠ top → put ancestor' top (some i) t = ancestor' t :=
    fun t hne => Function.update_of_ne hne _ _
  have hself : ∀ xs : ℕ → Option ℕ, put xs top (some i) top = some i :=
    fun xs => Function.update_self _ _ _
  have hparent : ∀ t, t ≠ top → put forest.parent top (some i) t = forest.parent t :=
    fun t hne => Function.update_of_ne hne _ _
  constructor
  case parent_iff =>
    intro t p
    rw [parent_concat_iff hc.reaches htop t p, ← h.parent_iff]
    dsimp only
    by_cases hne : t = top
    · subst hne
      have hnew : forest.parent t = none := (h.ancestor_none t).mp hnone
      rw [hself, hnew, Option.some.injEq]
      simp [eq_comm]
    · simp [hne]
  case ancestor_none =>
    intro t
    dsimp only
    by_cases hne : t = top
    · subst hne
      rw [hself, hself]
    · rw [hput t hne, hparent t hne, ← h.ancestor_none]
      cases hc.changes t with
      | inl hsame => rw [hsame]
      | inr hchanged => simp [hchanged.1, hchanged.2.1]
  case ancestor_some =>
    intro t a hsome
    dsimp only at hsome
    by_cases hne : t = top
    · subst hne
      rw [hself, Option.some.injEq] at hsome
      exact hsome ▸ ⟨htopi, hc.below, Nat.le_refl i⟩
    · rw [hput t hne] at hsome
      cases hc.changes t with
      | inl hsame => exact h.ancestor_some t a (hsame ▸ hsome)
      | inr hchanged =>
        rw [hchanged.1] at hsome
        cases hsome
        exact ⟨hchanged.2.2.2.1.trans htopi, hchanged.2.2.2.2, Nat.le_refl _⟩
  case ancestor_linked =>
    intro t hsome
    dsimp only at hsome ⊢
    by_cases hne : t = top
    · exact ⟨top, hne ▸ Relation.ReflTransGen.refl, hself _⟩
    · rw [hput t hne] at hsome
      cases hc.changes t with
      | inl hsame =>
        obtain ⟨r, htr, hr⟩ := h.ancestor_linked t (hsame ▸ hsome)
        refine ⟨r, htr, ?_⟩
        by_cases hrt : r = top
        · rw [hrt, hself]
        · rw [hparent r hrt]
          exact hr
      | inr hchanged => exact ⟨top, hchanged.2.2.2.1, hself _⟩

/-- The climb met a vertex that was linked in this row. -/
theorem Grown.link_stop (h : Grown G i js forest)
    (hc : Climbed G i j top forest.ancestor ancestor') (hj : Fill G j i)
    (hsome : forest.ancestor top = some i) :
    Grown G i (js ++ [j]) ⟨forest.parent, ancestor'⟩ := by
  have htopi := hc.top_ancestor hj
  obtain ⟨r, htr, hr⟩ := h.ancestor_linked top hsome
  have hri := ((h.parent_iff r i).mp hr).1
  constructor
  case parent_iff =>
    intro t p
    rw [parent_concat_iff (hc.reaches.trans htr) hri t p, ← h.parent_iff, iff_self_or]
    intro heq
    rw [heq.1, heq.2]
    exact hr
  case ancestor_none =>
    intro t
    dsimp only
    rw [← h.ancestor_none]
    cases hc.changes t with
    | inl hsame => rw [hsame]
    | inr hchanged => simp [hchanged.1, hchanged.2.1]
  case ancestor_some =>
    intro t a hta
    dsimp only at hta
    cases hc.changes t with
    | inl hsame => exact h.ancestor_some t a (hsame ▸ hta)
    | inr hchanged =>
      rw [hchanged.1] at hta
      cases hta
      exact ⟨hchanged.2.2.2.1.trans htopi, hchanged.2.2.2.2, Nat.le_refl _⟩
  case ancestor_linked =>
    intro t hta
    cases hc.changes t with
    | inl hsame => exact h.ancestor_linked t (hsame ▸ hta)
    | inr hchanged => exact ⟨r, hchanged.2.2.2.1.trans htr, hr⟩

theorem Grown.link (h : Grown G i js forest) (hj : Fill G j i) (hn : i ≤ n) :
    ∃ forest', Sparse.link n i forest j = some forest' ∧ Grown G i (js ++ [j]) forest' := by
  obtain ⟨ancestor', top, hclimb, hc⟩ :=
    exists_climb h.ancestor_some hj.ancestor hj.1 (Nat.le_trans (Nat.sub_le i j) hn)
  cases hc.stops with
  | inl hnone =>
    refine ⟨_, ?_, h.link_root hc hj hnone⟩
    rw [Sparse.link, hclimb]
    exact congrArg some (if_pos (hc.at_top.trans hnone))
  | inr hsome =>
    refine ⟨_, ?_, h.link_stop hc hj hsome⟩
    have hne : ancestor' top ≠ none := by
      rw [hc.at_top, hsome]
      exact Option.some_ne_none i
    rw [Sparse.link, hclimb]
    exact congrArg some (if_neg hne)

end Link

theorem Grown.foldlM_link {ks : List ℕ} (hn : i ≤ n) {forest : Forest} (h : Grown G i js forest)
    (hks : ∀ j ∈ ks, Fill G j i) :
    ∃ forest', ks.foldlM (Sparse.link n i) forest = some forest' ∧
      Grown G i (js ++ ks) forest' := by
  induction ks generalizing js forest with
  | nil =>
    refine ⟨forest, rfl, ?_⟩
    rw [List.append_nil]
    exact h
  | cons j ks ih =>
    obtain ⟨mid, hmid, hgrown⟩ := h.link (hks j List.mem_cons_self) hn
    obtain ⟨forest', hforest, hgrown'⟩ := ih hgrown fun j hj => hks j (List.mem_cons_of_mem _ hj)
    refine ⟨forest', ?_, ?_⟩
    · rw [List.foldlM_cons, hmid]
      exact hforest
    · rw [List.append_assoc] at hgrown'
      exact hgrown'

def LowerAdjacent (G : SimpleGraph ℕ) (n : ℕ) (ladj : ℕ → List ℕ) : Prop :=
  ∀ i < n, ∀ j, j ∈ ladj i ↔ j < i ∧ G.Adj j i

/-- A finished row leaves the children of `i` in place. -/
theorem Grown.next {forest : Forest} (h : Grown G i js forest)
    (hjs : ∀ j, j < i → G.Adj j i → j ∈ js) : Grown G (i + 1) [] forest where
  parent_iff := by
    intro t p
    rw [h.parent_iff]
    constructor
    · intro hleft
      refine ⟨hleft.1, Or.inl ?_⟩
      cases hleft.2 with
      | inl hlt => exact Nat.lt_succ_of_lt hlt
      | inr heq => exact heq.1 ▸ Nat.lt_succ_self p
    · intro hright
      refine ⟨hright.1, ?_⟩
      obtain hlt | ⟨-, j, hj, -⟩ := hright.2
      · obtain hlt | rfl := Nat.lt_succ_iff_lt_or_eq.mp hlt
        · exact Or.inl hlt
        · obtain ⟨hti, j, hadj, hjt⟩ := fill_iff_ancestor.mp hright.1.1
          exact Or.inr ⟨rfl, j, hjs j (Nat.lt_of_le_of_lt hjt.le hti) hadj, hjt⟩
      · exact absurd hj List.not_mem_nil
  ancestor_none := h.ancestor_none
  ancestor_some := by
    intro t a hsome
    obtain ⟨hanc, hlt, hle⟩ := h.ancestor_some t a hsome
    exact ⟨hanc, hlt, Nat.le_succ_of_le hle⟩
  ancestor_linked := by
    intro t hsome
    exact absurd (h.ancestor_some t (i + 1) hsome).2.2 (Nat.not_succ_le_self i)

theorem grown_foldlM {ladj : ℕ → List ℕ} (hladj : LowerAdjacent G n ladj) (hi : i ≤ n) :
    ∃ forest, (List.range i).foldlM (linkRow n ladj) ⟨fun _ => none, fun _ => none⟩ = some forest ∧
      Grown G i [] forest := by
  induction i with
  | zero =>
    refine ⟨⟨fun _ => none, fun _ => none⟩, rfl, ?_, ?_, ?_, ?_⟩
    · intro t p
      simp
    · exact fun t => Iff.rfl
    · exact fun t a h => by cases h
    · exact fun t h => by cases h
  | succ i ih =>
    obtain ⟨forest, hforest, hgrown⟩ := ih (Nat.le_of_succ_le hi)
    have hmem := hladj i hi
    have hfill : ∀ j ∈ ladj i, Fill G j i := by
      intro j hj
      exact fill_of_adj ((hmem j).mp hj).2 ((hmem j).mp hj).1
    obtain ⟨forest', hforest', hgrown'⟩ := hgrown.foldlM_link (Nat.le_of_succ_le hi) hfill
    refine ⟨forest', ?_, hgrown'.next fun j hj hadj => (hmem j).mpr ⟨hj, hadj⟩⟩
    rw [List.range_succ, List.foldlM_append, hforest]
    change (linkRow n ladj forest i >>= pure) = _
    rw [bind_pure, linkRow]
    exact hforest'

theorem etree_eq {ladj : ℕ → List ℕ} (hladj : LowerAdjacent G n ladj)
    (hlt : ∀ i j, G.Adj i j → i < n) :
    ∃ parent, etree n ladj = some parent ∧ ∀ j p, parent j = some p ↔ IsParent G j p := by
  obtain ⟨forest, hforest, hgrown⟩ := grown_foldlM hladj (Nat.le_refl n)
  refine ⟨forest.parent, ?_, ?_⟩
  · rw [etree, hforest]
    rfl
  · intro j p
    rw [hgrown.parent_iff, and_iff_left_iff_imp]
    intro hp
    obtain ⟨-, k, hadj, -⟩ := fill_iff_ancestor.mp hp.1
    exact Or.inl (hlt p k hadj.symm)

end FrankenSim.Sparse
