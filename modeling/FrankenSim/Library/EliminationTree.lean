import Mathlib.Combinatorics.SimpleGraph.Basic
import Mathlib.Combinatorics.SimpleGraph.Maps
import Mathlib.Tactic

/-!
# Vertex elimination, fill and the elimination tree

Eliminating a vertex of a graph joins its neighbours pairwise and isolates it. After a
list of eliminations two remaining vertices are adjacent exactly when a path of the
original graph joins them whose inner vertices were all eliminated.

The vertices of a graph on the naturals are eliminated in their order. `Fill G j i` says
that the elimination of `j` finds the later vertex `i` adjacent; the parent of `j` is the
first such vertex. A vertex is filled by its ancestors only, along the tree paths that
start at its neighbours, and every order in which parents follow their children has the
same fill.
-/
namespace FrankenSim.Library

section Elimination

variable {V : Type*}

/-- The graph after the elimination of `p`. -/
def eliminate (G : SimpleGraph V) (p : V) : SimpleGraph V where
  Adj i j := i ≠ j ∧ i ≠ p ∧ j ≠ p ∧ (G.Adj i j ∨ G.Adj i p ∧ G.Adj p j)
  symm := ⟨fun _ _ h => ⟨h.1.symm, h.2.2.1, h.2.1,
    h.2.2.2.imp SimpleGraph.Adj.symm fun h => ⟨h.2.symm, h.1.symm⟩⟩⟩
  loopless := ⟨fun _ h => h.1 rfl⟩

def eliminateAll (G : SimpleGraph V) (ps : List V) : SimpleGraph V := ps.foldl eliminate G

variable {G : SimpleGraph V} {ps : List V} {p i j k : V}

@[simp] theorem eliminateAll_nil : eliminateAll G [] = G := rfl

theorem eliminateAll_concat : eliminateAll G (ps ++ [p]) = eliminate (eliminateAll G ps) p :=
  List.foldl_concat _ _ _ _

theorem eliminate_adj : (eliminate G p).Adj i j ↔
    i ≠ j ∧ i ≠ p ∧ j ≠ p ∧ (G.Adj i j ∨ G.Adj i p ∧ G.Adj p j) :=
  Iff.rfl

/-- A path from `i` to `j` whose inner vertices lie in `S`. -/
inductive Through (G : SimpleGraph V) (S : Set V) : V → V → Prop
  | edge {i j : V} : G.Adj i j → Through G S i j
  | step {i k j : V} : G.Adj i k → k ∈ S → Through G S k j → Through G S i j

namespace Through

variable {S T : Set V}

theorem mono (hST : S ⊆ T) (h : Through G S i j) : Through G T i j := by
  induction h with
  | edge h => exact edge h
  | step h hk _ ih => exact step h (hST hk) ih

theorem trans (h : Through G S i k) (hk : k ∈ S) (h' : Through G S k j) : Through G S i j := by
  induction h with
  | edge h => exact step h hk h'
  | step h hl _ ih => exact step h hl (ih hk h')

theorem symm (h : Through G S i j) : Through G S j i := by
  induction h with
  | edge h => exact edge h.symm
  | step h hk _ ih => exact ih.trans hk (edge h.symm)

/-- One more inner vertex is passed at most once. -/
theorem of_insert (h : Through G (insert p S) i j) :
    Through G S i j ∨ Through G S i p ∧ Through G S p j := by
  induction h with
  | edge h => exact Or.inl (edge h)
  | @step i k j h hk _ ih =>
    obtain rfl | hk := Set.mem_insert_iff.mp hk
    · cases ih with
      | inl ih => exact Or.inr ⟨edge h, ih⟩
      | inr ih => exact Or.inr ⟨edge h, ih.2⟩
    · cases ih with
      | inl ih => exact Or.inl (step h hk ih)
      | inr ih => exact Or.inr ⟨step h hk ih.1, ih.2⟩

theorem through_insert : Through G (insert p S) i j ↔
    Through G S i j ∨ Through G S i p ∧ Through G S p j := by
  constructor
  · exact of_insert
  · intro h
    have hsub : S ⊆ insert p S := Set.subset_insert p S
    cases h with
    | inl h => exact h.mono hsub
    | inr h => exact (h.1.mono hsub).trans (Set.mem_insert p S) (h.2.mono hsub)

end Through

/-- Elimination keeps exactly the adjacencies through what was eliminated. -/
theorem eliminateAll_adj : (eliminateAll G ps).Adj i j ↔
    i ≠ j ∧ i ∉ ps ∧ j ∉ ps ∧ Through G {v | v ∈ ps} i j := by
  induction ps using List.reverseRecOn generalizing i j with
  | nil =>
    rw [eliminateAll_nil]
    constructor
    · exact fun h => ⟨h.ne, List.not_mem_nil, List.not_mem_nil, Through.edge h⟩
    · intro h
      cases h.2.2.2 with
      | edge h => exact h
      | step _ hk _ => exact absurd hk List.not_mem_nil
  | append_singleton ps p ih =>
    have hset : {v | v ∈ ps ++ [p]} = insert p {v | v ∈ ps} := by
      ext v
      simp [or_comm]
    rw [eliminateAll_concat, eliminate_adj, hset, Through.through_insert]
    simp only [ih, List.mem_append, List.mem_singleton, not_or]
    by_cases hp : p ∈ ps
    · have habsorb : Through G {v | v ∈ ps} i p ∧ Through G {v | v ∈ ps} p j →
          Through G {v | v ∈ ps} i j := fun h => h.1.trans hp h.2
      tauto
    · constructor
      · intro h
        tauto
      · intro h
        have hpj : p ≠ j := Ne.symm h.2.2.1.2
        tauto

end Elimination

variable {G : SimpleGraph ℕ} {i j k t : ℕ}

/-- `i` comes after `j` and is reached from it through earlier vertices. -/
def Fill (G : SimpleGraph ℕ) (j i : ℕ) : Prop := j < i ∧ Through G {v | v < j} j i

/-- The first vertex that `j` fills. -/
def IsParent (G : SimpleGraph ℕ) (j p : ℕ) : Prop := Fill G j p ∧ ∀ i, Fill G j i → p ≤ i

/-- Reached by taking parents, possibly none. -/
abbrev Ancestor (G : SimpleGraph ℕ) : ℕ → ℕ → Prop := Relation.ReflTransGen (IsParent G)

theorem fill_of_adj (h : G.Adj j i) (hlt : j < i) : Fill G j i := ⟨hlt, Through.edge h⟩

/-- Two later vertices that `k` fills fill each other. -/
theorem Fill.trans (hj : Fill G k j) (hi : Fill G k i) (hlt : j < i) : Fill G j i := by
  have hsub : {v | v < k} ⊆ {v | v < j} := fun v hv => Nat.lt_trans hv hj.1
  exact ⟨hlt, (hj.2.symm.mono hsub).trans hj.1 (hi.2.mono hsub)⟩

/-- The highest inner vertex of a path splits it. -/
theorem through_cases (b : ℕ) (h : Through G {v | v < b} k i) :
    G.Adj k i ∨ ∃ m < b, Through G {v | v < m} m k ∧ Through G {v | v < m} m i := by
  induction b with
  | zero =>
    cases h with
    | edge h => exact Or.inl h
    | step _ hk _ => exact absurd hk (Nat.not_lt_zero _)
  | succ b ih =>
    have hset : {v | v < b + 1} = insert b {v | v < b} := by
      ext v
      exact Nat.lt_succ_iff_lt_or_eq.trans or_comm
    rw [hset] at h
    cases h.of_insert with
    | inl h =>
      cases ih h with
      | inl h => exact Or.inl h
      | inr h =>
        obtain ⟨m, hm, h⟩ := h
        exact Or.inr ⟨m, Nat.lt_succ_of_lt hm, h⟩
    | inr h => exact Or.inr ⟨b, Nat.lt_succ_self b, h.1.symm, h.2⟩

theorem Fill.cases (h : Fill G k i) : G.Adj k i ∨ ∃ m, Fill G m k ∧ Fill G m i := by
  cases through_cases k h.2 with
  | inl h => exact Or.inl h
  | inr hsplit =>
    obtain ⟨m, hm, hk, hi⟩ := hsplit
    exact Or.inr ⟨m, ⟨hm, hk⟩, ⟨Nat.lt_trans hm h.1, hi⟩⟩

theorem IsParent.lt (h : IsParent G j k) : j < k := h.1.1

theorem isParent_rightUnique : Relator.RightUnique (IsParent G) := by
  intro j p p' h h'
  exact Nat.le_antisymm (h.2 p' h'.1) (h'.2 p h.1)

theorem Fill.exists_parent (h : Fill G j i) : ∃ p, IsParent G j p ∧ p ≤ i := by
  classical
  have hex : ∃ i, Fill G j i := ⟨i, h⟩
  exact ⟨Nat.find hex, ⟨Nat.find_spec hex, fun _ h => Nat.find_min' hex h⟩, Nat.find_min' hex h⟩

theorem Ancestor.le (h : Ancestor G j i) : j ≤ i := by
  induction h with
  | refl => exact Nat.le_refl _
  | tail _ hp ih => exact Nat.le_trans ih (Nat.le_of_lt hp.lt)

theorem Ancestor.comparable (hi : Ancestor G k i) (hj : Ancestor G k j) :
    Ancestor G i j ∨ Ancestor G j i :=
  Relation.ReflTransGen.total_of_right_unique isParent_rightUnique hi hj

/-- A proper ancestor is reached through the parent. -/
theorem Ancestor.of_parent {p : ℕ} (h : Ancestor G j i) (hp : IsParent G j p) (hne : j ≠ i) :
    Ancestor G p i := by
  cases Relation.ReflTransGen.cases_head h with
  | inl heq => exact absurd heq hne
  | inr hhead =>
    obtain ⟨p', hp', hi⟩ := hhead
    rwa [isParent_rightUnique hp hp']

/-- Whatever `j` fills is an ancestor of `j`. -/
theorem Fill.ancestor (h : Fill G j i) : Ancestor G j i := by
  induction hd : i - j using Nat.strong_induction_on generalizing j with
  | _ d ih =>
    obtain ⟨p, hp, hle⟩ := h.exists_parent
    obtain rfl | hlt := Nat.eq_or_lt_of_le hle
    · exact Relation.ReflTransGen.single hp
    · have hlower := h.1
      have hparent := hp.lt
      exact Relation.ReflTransGen.head hp (ih (i - p) (by omega) (hp.1.trans h hlt) rfl)

/-- The ancestors of a vertex that fills `i` fill `i` too, as long as they come before it. -/
theorem Fill.of_ancestor (h : Fill G j i) (ht : Ancestor G j t) (hlt : t < i) : Fill G t i := by
  induction ht with
  | refl => exact h
  | tail _ hp ih => exact hp.1.trans (ih (Nat.lt_trans hp.lt hlt)) hlt

/-- The row of `i`: the tree paths from its earlier neighbours, up to `i`. -/
theorem fill_iff_ancestor : Fill G t i ↔ t < i ∧ ∃ j, G.Adj j i ∧ Ancestor G j t := by
  constructor
  · intro h
    refine ⟨h.1, ?_⟩
    induction t using Nat.strong_induction_on with
    | _ t ih =>
      cases h.cases with
      | inl hadj => exact ⟨t, hadj, Relation.ReflTransGen.refl⟩
      | inr hm =>
        obtain ⟨m, hmt, hmi⟩ := hm
        obtain ⟨j, hadj, hj⟩ := ih m hmt.1 hmi
        exact ⟨j, hadj, hj.trans hmt.ancestor⟩
  · intro h
    obtain ⟨hlt, j, hadj, hj⟩ := h
    exact (fill_of_adj hadj (Nat.lt_of_le_of_lt hj.le hlt)).of_ancestor hj hlt

/-- Neighbours are on one path of the tree. -/
theorem comparable_of_adj (h : G.Adj i j) : Ancestor G i j ∨ Ancestor G j i := by
  obtain hlt | heq | hlt := Nat.lt_trichotomy i j
  · exact Or.inl (fill_of_adj h hlt).ancestor
  · exact absurd heq h.ne
  · exact Or.inr (fill_of_adj h.symm hlt).ancestor

section Reordering

variable {S : Set ℕ}

/-- A path that starts below `j` and avoids the ancestors of `j` stays below `j`. -/
theorem Through.stays_below (hS : ∀ v ∈ S, ¬ Ancestor G j v) (h : Through G S k i)
    (hk : Ancestor G k j) :
    (∃ d, G.Adj d i ∧ Ancestor G d j) ∧ Through G {v | v ∈ S ∧ Ancestor G v j} k i := by
  induction h with
  | edge h => exact ⟨⟨_, h, hk⟩, Through.edge h⟩
  | @step k l i hadj hl _ ih =>
    have hbelow : Ancestor G l j := by
      cases comparable_of_adj hadj with
      | inl hkl =>
        cases Ancestor.comparable hkl hk with
        | inl hlj => exact hlj
        | inr hjl => exact absurd hjl (hS l hl)
      | inr hlk => exact hlk.trans hk
    obtain ⟨hd, hthrough⟩ := ih hbelow
    exact ⟨hd, Through.step hadj ⟨hl, hbelow⟩ hthrough⟩

/-- The tree below a vertex is connected inside itself. -/
theorem Ancestor.through (h : Ancestor G k j) (hne : k ≠ j) :
    Through G {v | Ancestor G v j ∧ v ≠ j} j k := by
  induction h with
  | refl => exact absurd rfl hne
  | @tail c j hc hp ih =>
    have hS : ∀ v ∈ {v | v < c}, ¬ Ancestor G c v := by
      intro v hv hcv
      exact Nat.not_lt_of_le hcv.le hv
    have hfill := (hp.1.2.stays_below hS Relation.ReflTransGen.refl).2
    have hcj : c ∈ {v | Ancestor G v j ∧ v ≠ j} :=
      ⟨Relation.ReflTransGen.single hp, Nat.ne_of_lt hp.lt⟩
    have hup : Through G {v | Ancestor G v j ∧ v ≠ j} j c := by
      apply (hfill.mono _).symm
      intro v hv
      exact ⟨hv.2.tail hp, Nat.ne_of_lt (Nat.lt_trans hv.1 hp.lt)⟩
    by_cases hkc : k = c
    · rw [hkc]
      exact hup
    · apply hup.trans hcj
      apply (ih hkc).mono
      intro v hv
      exact ⟨hv.1.tail hp, Nat.ne_of_lt (Nat.lt_of_le_of_lt hv.1.le hp.lt)⟩

/-- The graph with its vertices renamed: `f` takes the new names to the old ones. -/
abbrev renamed (G : SimpleGraph ℕ) (f : ℕ ≃ ℕ) : SimpleGraph ℕ := G.comap f

variable {f : ℕ ≃ ℕ}

theorem through_renamed : Through (renamed G f) S i j ↔
    Through G (Set.preimage f.symm S) (f i) (f j) := by
  constructor
  · intro h
    induction h with
    | edge h => exact Through.edge h
    | step h hk _ ih => exact Through.step h (by simpa using hk) ih
  · have hback : ∀ {a b : ℕ}, Through G (Set.preimage f.symm S) a b →
        Through (renamed G f) S (f.symm a) (f.symm b) := by
      intro a b h
      induction h with
      | edge h => exact Through.edge (by simpa using h)
      | step h hk _ ih => exact Through.step (by simpa using h) hk ih
    intro h
    simpa using hback h

/-- An order in which parents follow their children. -/
def Respects (G : SimpleGraph ℕ) (f : ℕ ≃ ℕ) : Prop :=
  ∀ j p, IsParent G j p → f.symm j < f.symm p

theorem Respects.le (hf : Respects G f) (h : Ancestor G i j) : f.symm i ≤ f.symm j := by
  induction h with
  | refl => exact Nat.le_refl _
  | tail _ hp ih => exact Nat.le_trans ih (Nat.le_of_lt (hf _ _ hp))

theorem Respects.lt (hf : Respects G f) (h : Ancestor G i j) (hne : i ≠ j) :
    f.symm i < f.symm j := by
  apply Nat.lt_of_le_of_ne (hf.le h)
  exact fun heq => hne (f.symm.injective heq)

/-- Such an order has the same fill. -/
theorem Respects.fill_iff (hf : Respects G f) :
    Fill (renamed G f) i j ↔ Fill G (f i) (f j) := by
  rw [Fill, through_renamed]
  constructor
  · intro h
    have hS : ∀ v ∈ Set.preimage f.symm {v | v < i}, ¬ Ancestor G (f i) v := by
      intro v hv hanc
      have hle := hf.le hanc
      rw [Equiv.symm_apply_apply] at hle
      exact Nat.not_lt_of_le hle hv
    obtain ⟨d, hadj, hd⟩ := (h.2.stays_below hS Relation.ReflTransGen.refl).1
    refine fill_iff_ancestor.mpr ⟨?_, d, hadj, hd⟩
    have hnot : ¬ Ancestor G (f j) (f i) := by
      intro hanc
      have hle := hf.le hanc
      rw [Equiv.symm_apply_apply, Equiv.symm_apply_apply] at hle
      exact Nat.not_lt_of_le hle h.1
    have hup : Ancestor G (f i) (f j) := by
      cases comparable_of_adj hadj with
      | inl hdj =>
        cases Ancestor.comparable hdj hd with
        | inl hji => exact absurd hji hnot
        | inr hij => exact hij
      | inr hjd => exact absurd (hjd.trans hd) hnot
    apply Nat.lt_of_le_of_ne hup.le
    intro heq
    rw [heq] at hnot
    exact hnot Relation.ReflTransGen.refl
  · intro h
    obtain ⟨hlt, d, hadj, hd⟩ := fill_iff_ancestor.mp h
    have hbelow : ∀ v, Ancestor G v (f i) → v ≠ f i → f.symm v < i := by
      intro v hv hne
      have hlt := hf.lt hv hne
      rwa [Equiv.symm_apply_apply] at hlt
    constructor
    · have hup := hf.lt h.ancestor (Nat.ne_of_lt h.1)
      rwa [Equiv.symm_apply_apply, Equiv.symm_apply_apply] at hup
    · by_cases hdi : d = f i
      · exact Through.edge (hdi ▸ hadj)
      · have hpath := (hd.through hdi).mono fun v hv => hbelow v hv.1 hv.2
        exact hpath.trans (hbelow d hd hdi) (Through.edge hadj)

/-- Such an order has the same tree. -/
theorem Respects.isParent_iff (hf : Respects G f) :
    IsParent (renamed G f) i j ↔ IsParent G (f i) (f j) := by
  constructor
  · intro h
    have hfill := hf.fill_iff.mp h.1
    obtain ⟨p, hp, hle⟩ := hfill.exists_parent
    have hpj : f.symm p = j := by
      apply Nat.le_antisymm
      · have hanc := hfill.ancestor.of_parent hp (Nat.ne_of_lt hfill.1)
        have hle := hf.le hanc
        rwa [Equiv.symm_apply_apply] at hle
      · apply h.2
        rw [hf.fill_iff, Equiv.apply_symm_apply]
        exact hp.1
    rw [← hpj, Equiv.apply_symm_apply]
    exact hp
  · intro h
    refine ⟨hf.fill_iff.mpr h.1, ?_⟩
    intro k hk
    have hfill := hf.fill_iff.mp hk
    have hle := hf.le (hfill.ancestor.of_parent h (Nat.ne_of_lt hfill.1))
    rwa [Equiv.symm_apply_apply, Equiv.symm_apply_apply] at hle

theorem Respects.ancestor_iff (hf : Respects G f) :
    Ancestor (renamed G f) i j ↔ Ancestor G (f i) (f j) := by
  constructor
  · intro h
    induction h with
    | refl => exact Relation.ReflTransGen.refl
    | tail _ hp ih => exact ih.tail (hf.isParent_iff.mp hp)
  · have hback : ∀ {a b : ℕ}, Ancestor G a b → Ancestor (renamed G f) (f.symm a) (f.symm b) := by
      intro a b h
      induction h with
      | refl => exact Relation.ReflTransGen.refl
      | tail _ hp ih =>
        refine ih.tail (hf.isParent_iff.mpr ?_)
        simpa using hp
    intro h
    simpa using hback h

end Reordering

end FrankenSim.Library
