import FrankenSim.Voxel.ElderSweep
import Mathlib.Data.List.Sort

/-!
# What the bars say

The bars count the components at every level: as many bars are born below one level and
die no earlier than another as there are components below the second that reach below the
first. Each finite bar belongs to an elder that dies, and the infinite ones are the elders
of the whole grid.
-/
namespace FrankenSim.Voxel

open Library

variable {V : Type} [LinearOrder V]

/-- The bars so far belong to different voxels that were elders and died. -/
structure Recorded (value : ℕ → V) (r : ℕ → ℕ → Prop) (P S W : Set ℕ) (bars : List (Bar V)) :
    Prop where
  birth : ∀ bar ∈ bars, bar.birth = value bar.birthIndex
  dies : ∀ bar ∈ bars, Dies value r P bar.birthIndex bar.death
  mem : ∀ bar ∈ bars, bar.birthIndex ∈ S
  gone : ∀ bar ∈ bars, bar.birthIndex ∉ W
  reached : ∀ bar ∈ bars, ∃ a ∈ S, value a = bar.death
  nodup : (bars.map Bar.birthIndex).Nodup

/-- The bars born below one level that die no earlier than another. -/
def barsAt (l m : V) (bars : List (Bar V)) : ℕ :=
  bars.countP fun bar => decide (bar.birth < l ∧ m ≤ bar.death)

/-- The bars at two levels, with the elders still to be recorded. -/
noncomputable def account (value : ℕ → V) (l m : V) (W : Set ℕ) (bars : List (Bar V)) : ℕ :=
  barsAt l m bars + (sublevel value W l).ncard

variable {value : ℕ → V} {r r' r₀ : ℕ → ℕ → Prop} {P S W W' : Set ℕ} {bars bars' : List (Bar V)}
  {l m v : V}

@[simp] theorem barsAt_append (l m : V) (bars bars' : List (Bar V)) :
    barsAt l m (bars ++ bars') = barsAt l m bars + barsAt l m bars' := List.countP_append

theorem barsAt_singleton (bar : Bar V) :
    barsAt l m [bar] = if bar.birth < l ∧ m ≤ bar.death then 1 else 0 := by
  simp [barsAt, List.countP_singleton]

/-- Beyond a level the number of bars and elders there stays. -/
theorem Met.account (hmet : Met value v r r' S W bars W' bars') (hfinite : W.Finite)
    (hlm : l ≤ m) (hmv : m ≤ v) : account value l m W' bars' = account value l m W bars := by
  unfold Voxel.account
  cases hmet with
  | kept => rfl
  | retired w w' hw hw' hne hle =>
    by_cases hl : value w < l
    · have hgone : sublevel value (W \ {w}) l = sublevel value W l \ {w} := by
        ext a
        exact ⟨fun h => ⟨⟨h.1.1, h.2⟩, h.1.2⟩, fun h => ⟨⟨h.1.1, h.2⟩, h.1.2⟩⟩
      have hmem : w ∈ sublevel value W l := ⟨hw, hl⟩
      have hcard := Set.ncard_sdiff_singleton_add_one hmem (hfinite.subset fun _ h => h.1)
      rw [if_pos (lt_of_lt_of_le hl (le_trans hlm hmv)), barsAt_append, barsAt_singleton,
        if_pos ⟨hl, hmv⟩, hgone]
      omega
    · have hsame : sublevel value (W \ {w}) l = sublevel value W l := by
        ext a
        constructor
        · exact fun h => ⟨h.1.1, h.2⟩
        · intro h
          refine ⟨⟨h.1, ?_⟩, h.2⟩
          rintro rfl
          exact hl h.2
      rw [hsame]
      split
      case isTrue => rw [barsAt_append, barsAt_singleton, if_neg fun h => hl h.1, Nat.add_zero]
      case isFalse => rfl

/-- A look at a neighbour records the elder that goes, when it dies later than it was born. -/
theorem Recorded.met (h : Recorded value r₀ P S W bars) (helders : Elders value r S W)
    (hmet : Met value v r r' S W bars W' bars') (hv : ∃ a ∈ S, value a = v)
    (hbefore : ∀ a b, Library.Joined r₀ (sublevel value P v) a b → Library.Joined r S a b)
    (hafter : ∀ a b, Library.Joined r' S a b → Library.Joined r₀ (closedSublevel value P v) a b) :
    Recorded value r₀ P S W' bars' := by
  cases hmet with
  | kept => exact h
  | retired w w' hw hw' hne hle hunites =>
    have hgone : ∀ bar ∈ bars, bar.birthIndex ∉ W \ {w} := fun bar hbar hmem =>
      h.gone bar hbar hmem.1
    split
    case isTrue hlt =>
      have hdies := helders.dies hunites hw hw' hne hle hlt hbefore hafter
      constructor
      · intro bar hbar
        obtain hbar | hbar := List.mem_append.mp hbar
        · exact h.birth bar hbar
        · rw [List.mem_singleton.mp hbar]
      · intro bar hbar
        obtain hbar | hbar := List.mem_append.mp hbar
        · exact h.dies bar hbar
        · rw [List.mem_singleton.mp hbar]
          exact hdies
      · intro bar hbar
        obtain hbar | hbar := List.mem_append.mp hbar
        · exact h.mem bar hbar
        · rw [List.mem_singleton.mp hbar]
          exact helders.subset hw
      · intro bar hbar
        obtain hbar | hbar := List.mem_append.mp hbar
        · exact hgone bar hbar
        · rw [List.mem_singleton.mp hbar]
          exact fun hmem => hmem.2 rfl
      · intro bar hbar
        obtain hbar | hbar := List.mem_append.mp hbar
        · exact h.reached bar hbar
        · rw [List.mem_singleton.mp hbar]
          exact hv
      · rw [List.map_append]
        apply h.nodup.append (List.nodup_singleton _)
        intro a ha ha'
        obtain ⟨bar, hbar, rfl⟩ := List.mem_map.mp ha
        have hw' : bar.birthIndex = w := List.mem_singleton.mp ha'
        exact h.gone bar hbar (hw' ▸ hw)
    case isFalse =>
      exact ⟨h.birth, h.dies, h.mem, hgone, h.reached, h.nodup⟩

theorem Recorded.activate {i : ℕ} (h : Recorded value r₀ P S W bars) (hi : i ∉ S) :
    Recorded value r₀ P (insert i S) (insert i W) bars where
  birth := h.birth
  dies := h.dies
  mem := fun bar hbar => Set.mem_insert_of_mem i (h.mem bar hbar)
  gone := by
    intro bar hbar hmem
    obtain heq | hmem := hmem
    · exact hi (heq ▸ h.mem bar hbar)
    · exact h.gone bar hbar hmem
  reached := by
    intro bar hbar
    obtain ⟨a, ha, heq⟩ := h.reached bar hbar
    exact ⟨a, Set.mem_insert_of_mem i ha, heq⟩
  nodup := h.nodup

theorem account_insert {i : ℕ} (hl : l ≤ value i) :
    account value l m (insert i W) bars = account value l m W bars := by
  have hsame : sublevel value (insert i W) l = sublevel value W l := by
    ext a
    constructor
    · rintro ⟨rfl | ha, hlt⟩
      · exact absurd hlt (not_lt_of_ge hl)
      · exact ⟨ha, hlt⟩
    · exact fun h => ⟨Set.mem_insert_of_mem i h.1, h.2⟩
  unfold account
  rw [hsame]

/-- The voxels that are left come by value, and none is below one that was activated. -/
structure Ahead (value : ℕ → V) (P S : Set ℕ) (todo : List ℕ) : Prop where
  sorted : todo.Pairwise fun a b => value a ≤ value b
  nodup : todo.Nodup
  mem_iff : ∀ a, a ∈ todo ↔ a ∈ P ∧ a ∉ S
  low : ∀ a ∈ S, a ∈ P ∧ ∀ b ∈ todo, value a ≤ value b

theorem Ahead.next {i : ℕ} {todo : List ℕ} (h : Ahead value P S (i :: todo)) :
    Ahead value P (insert i S) todo where
  sorted := (List.pairwise_cons.mp h.sorted).2
  nodup := (List.nodup_cons.mp h.nodup).2
  mem_iff := by
    intro a
    have hi := (List.nodup_cons.mp h.nodup).1
    have ha := h.mem_iff a
    rw [List.mem_cons] at ha
    rw [Set.mem_insert_iff, not_or]
    constructor
    · intro hmem
      exact ⟨(ha.mp (Or.inr hmem)).1, fun heq => hi (heq ▸ hmem), (ha.mp (Or.inr hmem)).2⟩
    · rintro ⟨hP, hne, hS⟩
      exact (ha.mpr ⟨hP, hS⟩).resolve_left hne
  low := by
    rintro a (rfl | ha)
    · exact ⟨((h.mem_iff a).mp List.mem_cons_self).1, (List.pairwise_cons.mp h.sorted).1⟩
    · exact ⟨(h.low a ha).1, fun b hb => (h.low a ha).2 b (List.mem_cons_of_mem i hb)⟩

/-- All voxels below the next one are active, and no active voxel is above it. -/
theorem Ahead.sublevel_subset {i : ℕ} {todo : List ℕ} (h : Ahead value P S (i :: todo)) :
    sublevel value P (value i) ⊆ S := by
  rintro a ⟨hP, hlt⟩
  by_contra hS
  obtain heq | hmem := List.mem_cons.mp ((h.mem_iff a).mpr ⟨hP, hS⟩)
  · exact absurd hlt (heq ▸ lt_irrefl _)
  · exact absurd ((List.pairwise_cons.mp h.sorted).1 a hmem) (not_le_of_gt hlt)

theorem Ahead.subset_closedSublevel {i : ℕ} {todo : List ℕ} (h : Ahead value P S (i :: todo)) :
    insert i S ⊆ closedSublevel value P (value i) := by
  rintro a (rfl | ha)
  · exact ⟨((h.mem_iff a).mp List.mem_cons_self).1, le_refl _⟩
  · exact ⟨(h.low a ha).1, (h.low a ha).2 i List.mem_cons_self⟩

section Sweep

variable {field : VoxelField V} {s : Sweep V} {i : ℕ}

def VoxelField.voxels (field : VoxelField V) : Set ℕ := {i | i < field.size}

omit [LinearOrder V] in
theorem voxels_finite : field.voxels.Finite := Set.finite_lt_nat field.size

theorem joined_avoid (hi : i ∉ S) (a b : ℕ) :
    Library.Joined (fun a b => r a b ∧ a ≠ i ∧ b ≠ i) S a b ↔ Library.Joined r S a b := by
  constructor
  · exact Library.Joined.mono subset_rfl fun _ _ h => h.1
  · apply Relation.EqvGen.mono
    rintro a b ⟨ha, hb, hr⟩
    exact ⟨ha, hb, hr, fun h => hi (h ▸ ha), fun h => hi (h ▸ hb)⟩

omit [LinearOrder V] in
/-- The edges of an activated voxel complete the graph on the active voxels. -/
theorem joined_complete (hi : i < field.size) (a b : ℕ) :
    Library.Joined field.FaceAdjacent (insert i S) a b ↔
      Library.Joined (Holds.withEdges (fun a b => field.FaceAdjacent a b ∧ a ≠ i ∧ b ≠ i) i
        (field.neighbors i)) (insert i S) a b := by
  constructor
  · intro h
    induction h with
    | rel a b h =>
      obtain ⟨ha, hb, hadj⟩ := h
      by_cases hai : a = i
      · subst hai
        exact Library.Joined.step ha hb (Holds.withEdges_iff _ |>.mpr
          (Or.inr ⟨rfl, (VoxelField.mem_neighbors_iff hi).mpr hadj⟩))
      · by_cases hbi : b = i
        · subst hbi
          exact (Library.Joined.step hb ha (Holds.withEdges_iff _ |>.mpr
            (Or.inr ⟨rfl, (VoxelField.mem_neighbors_iff hi).mpr hadj.symm⟩))).symm
        · exact Library.Joined.step ha hb
            (Holds.withEdges_iff _ |>.mpr (Or.inl ⟨hadj, hai, hbi⟩))
    | refl a => exact Library.Joined.refl a
    | symm _ _ _ ih => exact ih.symm
    | trans _ _ _ _ _ ih ih' => exact ih.trans ih'
  · apply Library.Joined.mono subset_rfl
    intro a b h
    obtain h | ⟨rfl, hb⟩ := (Holds.withEdges_iff _).mp h
    · exact h.1
    · exact (VoxelField.mem_neighbors_iff hi).mp hb

variable [OrderTop V]

/-- What every look at a neighbour of a voxel keeps, next to the elders. -/
structure Kept (field : VoxelField V) (i : ℕ) (S : Set ℕ) (total : V → V → ℕ)
    (r : ℕ → ℕ → Prop) (W : Set ℕ) (bars : List (Bar V)) : Prop where
  edges : ∀ a b, r a b → field.FaceAdjacent a b
  before : ∀ a b, Library.Joined field.FaceAdjacent
    (sublevel field.valueAt field.voxels (field.valueAt i)) a b → Library.Joined r (insert i S) a b
  recorded : Recorded field.valueAt field.FaceAdjacent field.voxels (insert i S) W bars
  count : ∀ l m, l ≤ m → m ≤ field.valueAt i → account field.valueAt l m W bars = total l m

theorem Kept.met {todo : List ℕ} {total : V → V → ℕ} {nb : ℕ}
    (hahead : Ahead field.valueAt field.voxels S (i :: todo)) (h : Kept field i S total r W bars)
    (hnb : nb ∈ field.neighbors i) (helders : Elders field.valueAt r (insert i S) W)
    (hmet : Met field.valueAt (field.valueAt i) r (withEdge r i nb) (insert i S) W bars W' bars') :
    Kept field i S total (withEdge r i nb) W' bars' := by
  have hi : i < field.size := ((hahead.mem_iff i).mp List.mem_cons_self).1
  have hclosed := hahead.subset_closedSublevel
  have hedges : ∀ a b, withEdge r i nb a b → field.FaceAdjacent a b := by
    rintro a b (hab | ⟨rfl, rfl⟩)
    · exact h.edges a b hab
    · exact (VoxelField.mem_neighbors_iff hi).mp hnb
  have hfinite : W.Finite := voxels_finite.subset fun a ha => (hclosed (helders.subset ha)).1
  constructor
  · exact hedges
  · intro a b hab
    exact (h.before a b hab).mono subset_rfl fun _ _ => Or.inl
  · apply h.recorded.met helders hmet ⟨i, Set.mem_insert i S, rfl⟩ h.before
    intro a b hab
    exact hab.mono hclosed hedges
  · intro l m hlm hm
    rw [hmet.account hfinite hlm hm, h.count l m hlm hm]

theorem Holds.sweepVoxel {todo : List ℕ}
    (h : Holds field.valueAt field.FaceAdjacent S W s)
    (hrecorded : Recorded field.valueAt field.FaceAdjacent field.voxels S W s.bars)
    (hahead : Ahead field.valueAt field.voxels S (i :: todo)) :
    ∃ W', Holds field.valueAt field.FaceAdjacent (insert i S) W' (field.sweepVoxel s i) ∧
      Recorded field.valueAt field.FaceAdjacent field.voxels (insert i S) W'
        (field.sweepVoxel s i).bars ∧
      ∀ l m, l ≤ m → m ≤ field.valueAt i →
        account field.valueAt l m W' (field.sweepVoxel s i).bars =
          account field.valueAt l m W s.bars := by
  obtain ⟨hi, hnew⟩ := (hahead.mem_iff i).mp List.mem_cons_self
  have hactive := (h.congr (joined_avoid hnew)).activate hnew fun a b hr => hr.2
  have hkept : Kept field i S (fun l m => account field.valueAt l m W s.bars)
      (fun a b => field.FaceAdjacent a b ∧ a ≠ i ∧ b ≠ i) (insert i W) s.bars := by
    constructor
    · intro a b hab
      exact hab.1
    · intro a b hab
      apply (joined_insert fun a b hr => hr.2).mpr
      apply (joined_avoid hnew a b).mpr
      exact hab.mono hahead.sublevel_subset fun _ _ h => h
    · exact hrecorded.activate hnew
    · intro l m hlm hm
      exact account_insert (le_trans hlm hm)
  obtain ⟨W', hheld, hkept⟩ := hactive.foldl_visit (Set.mem_insert i S) (field.neighbors i)
    (fun r nb hnb W bars W' bars' helders hmet hQ => hQ.met hahead hnb helders hmet) hkept
  exact ⟨W', hheld.congr (joined_complete hi), hkept.recorded, hkept.count⟩

theorem Holds.run {rest : List ℕ} : ∀ {todo : List ℕ} {S W : Set ℕ} {s : Sweep V},
    Holds field.valueAt field.FaceAdjacent S W s →
    Recorded field.valueAt field.FaceAdjacent field.voxels S W s.bars →
    Ahead field.valueAt field.voxels S (todo ++ rest) →
    ∃ S' W', Ahead field.valueAt field.voxels S' rest ∧
      Holds field.valueAt field.FaceAdjacent S' W' (todo.foldl field.sweepVoxel s) ∧
      Recorded field.valueAt field.FaceAdjacent field.voxels S' W'
        (todo.foldl field.sweepVoxel s).bars ∧
      ∀ l m, l ≤ m → (∀ a ∈ todo, m ≤ field.valueAt a) →
        account field.valueAt l m W' (todo.foldl field.sweepVoxel s).bars =
          account field.valueAt l m W s.bars
  | [], S, W, s, h, hrecorded, hahead => ⟨S, W, hahead, h, hrecorded, fun _ _ _ _ => rfl⟩
  | i :: todo, S, W, s, h, hrecorded, hahead => by
    obtain ⟨W₁, h₁, hrecorded₁, hcount₁⟩ := h.sweepVoxel hrecorded hahead
    obtain ⟨S', W', hahead', h', hrecorded', hcount'⟩ := h₁.run hrecorded₁ hahead.next
    refine ⟨S', W', hahead', h', hrecorded', ?_⟩
    intro l m hlm hm
    rw [List.foldl_cons, hcount' l m hlm fun a ha => hm a (List.mem_cons_of_mem i ha),
      hcount₁ l m hlm (hm i List.mem_cons_self)]

def essential (s : Sweep V) (i : ℕ) : Bar V := ⟨s.birth i, s.birthIndex i, ⊤⟩

def activeRoots (s : Sweep V) (voxels : List ℕ) : List ℕ :=
  voxels.filter fun i => decide (s.uf.root i = i ∧ s.active i = true)

theorem finish_bars (s : Sweep V) (i : ℕ) :
    (s.finish i).bars = s.bars ++ (activeRoots s [i]).map (essential s) := by
  unfold Sweep.finish activeRoots
  dsimp only
  rw [UnionFind.find_snd, List.filter_singleton]
  by_cases h : s.uf.root i = i ∧ s.active i = true
  · rw [if_pos h, decide_eq_true h]
    rfl
  · rw [if_neg h, decide_eq_false h]
    exact (List.append_nil _).symm

theorem foldl_finish (voxels : List ℕ) (s : Sweep V) :
    (voxels.foldl Sweep.finish s).bars = s.bars ++ (activeRoots s voxels).map (essential s) := by
  induction voxels generalizing s with
  | nil => exact (List.append_nil _).symm
  | cons i voxels ih =>
    -- finding a root changes no roots, so the later voxels are judged alike
    have hroots : activeRoots (s.finish i) voxels = activeRoots s voxels := by
      apply List.filter_congr
      intro j _
      simp [Sweep.finish]
    have hsplit : activeRoots s (i :: voxels) = activeRoots s [i] ++ activeRoots s voxels :=
      List.filter_append [i] voxels
    rw [List.foldl_cons, ih, hroots, finish_bars, hsplit, List.map_append, List.append_assoc]
    rfl

omit [OrderTop V] in
/-- At the end every elder is the birth voxel of exactly one active root. -/
theorem Holds.essential (h : Holds value r S W s) {voxels : List ℕ} (hnodup : voxels.Nodup)
    (hvoxels : ∀ i, i ∈ voxels ↔ i ∈ S) :
    ((activeRoots s voxels).map s.birthIndex).Nodup ∧
      ∀ w, w ∈ (activeRoots s voxels).map s.birthIndex ↔ w ∈ W := by
  have hlive : ∀ i, i ∈ activeRoots s voxels ↔ s.uf.root i = i ∧ i ∈ S := by
    intro i
    rw [activeRoots, List.mem_filter, decide_eq_true_eq, h.active, hvoxels]
    exact ⟨fun hi => hi.2, fun hi => ⟨hi.2, hi⟩⟩
  have hback : ∀ i ∈ activeRoots s voxels, s.uf.root (s.birthIndex i) = i := by
    intro i hi
    obtain ⟨hroot, hS⟩ := (hlive i).mp hi
    have hjoined := (h.roots _ i).mpr (h.joined i hS)
    rwa [hroot] at hjoined
  constructor
  · apply List.Nodup.map_on _ (hnodup.filter _)
    intro i hi j hj heq
    rw [← hback i hi, heq, hback j hj]
  · intro w
    rw [List.mem_map]
    constructor
    · rintro ⟨i, hi, rfl⟩
      obtain ⟨hroot, hS⟩ := (hlive i).mp hi
      have helder := h.elder i hS
      rwa [hroot] at helder
    · intro hw
      have hS := h.elders.subset hw
      refine ⟨s.uf.root w, ?_, ?_⟩
      · have hjoined := (h.roots w (s.uf.root w)).mp (UnionFind.root_root s.uf w).symm
        exact (hlive _).mpr ⟨UnionFind.root_root s.uf w, (Library.Joined.mem_iff hjoined).mp hS⟩
      · exact h.elders.apart _ (h.elder w hS) w hw (h.joined w hS)

end Sweep

theorem ncard_sublevel {ws : List ℕ} (hnodup : ws.Nodup) (hmem : ∀ w, w ∈ ws ↔ w ∈ W) (l : V) :
    (sublevel value W l).ncard = ws.countP fun w => decide (value w < l) := by
  have hset : sublevel value W l = ((ws.filter fun w => decide (value w < l)).toFinset : Set ℕ) := by
    ext w
    simp [sublevel, hmem]
  rw [hset, Set.ncard_coe_finset, List.toFinset_card_of_nodup (hnodup.filter _),
    List.countP_eq_length_filter]

theorem sorted_split {todo : List ℕ} (h : todo.Pairwise fun a b => value a ≤ value b) (m : V) :
    todo = (todo.filter fun a => decide (value a < m)) ++
      todo.filter fun a => decide (m ≤ value a) := by
  induction todo with
  | nil => rfl
  | cons i todo ih =>
    obtain ⟨hi, htodo⟩ := List.pairwise_cons.mp h
    by_cases hlt : value i < m
    · rw [List.filter_cons_of_pos (by simpa using hlt),
        List.filter_cons_of_neg (by simpa using hlt), List.cons_append, ← ih htodo]
    · have hge : ∀ a ∈ i :: todo, m ≤ value a := by
        intro a ha
        obtain rfl | ha := List.mem_cons.mp ha
        · exact le_of_not_gt hlt
        · exact le_trans (le_of_not_gt hlt) (hi a ha)
      rw [List.filter_eq_nil_iff.mpr (by simpa using hge),
        List.filter_eq_self.mpr (by simpa using hge), List.nil_append]

end FrankenSim.Voxel
