import FrankenSim.Voxel.Barcode

/-!
# The elder rule

The persistence of a field whose values fill its box. At any two levels the bars count the
components below the second that reach below the first. Different bars have different
birth voxels, the finite ones die by the elder rule, and the infinite ones are one elder
for every component of the whole grid.
-/
namespace FrankenSim.Voxel

open Library

variable {V : Type} [LinearOrder V] [OrderTop V]

/-- The values fill the box and are below infinity, and an index fits a word. -/
structure VoxelField.WellFormed (field : VoxelField V) : Prop where
  filled : field.values.length = field.size
  fits : field.size < 2 ^ 32
  finite : ∀ v ∈ field.values, v < ⊤

namespace VoxelField

variable {field : VoxelField V}

def swept (field : VoxelField V) : Sweep V := field.order.foldl field.sweepVoxel Sweep.start

theorem WellFormed.asU32_length (h : field.WellFormed) :
    asU32 field.values.length = field.size := by
  rw [h.filled]
  exact Nat.mod_eq_of_lt h.fits

theorem WellFormed.valueAt_lt (h : field.WellFormed) {i : ℕ} (hi : i < field.size) :
    field.valueAt i < ⊤ := by
  have hlt : i < field.values.length := h.filled ▸ hi
  unfold valueAt
  rw [List.getD_eq_getElem?_getD, List.getElem?_eq_getElem hlt, Option.getD_some]
  exact h.finite _ (List.getElem_mem hlt)

theorem WellFormed.ahead (h : field.WellFormed) :
    Ahead field.valueAt field.voxels ∅ field.order where
  sorted := by
    unfold order
    apply (sorted_sortByKey _ _).imp
    intro a b hab
    rw [Prod.Lex.toLex_le_toLex'] at hab
    exact hab.1
  nodup := (sortByKey_perm _ _).nodup_iff.mpr List.nodup_range
  mem_iff := by
    intro a
    unfold order
    rw [mem_sortByKey, h.asU32_length, List.mem_range]
    exact (and_iff_left (Set.notMem_empty a)).symm
  low := fun a ha => absurd ha (Set.notMem_empty a)

theorem recorded_start : Recorded field.valueAt field.FaceAdjacent field.voxels ∅ ∅
    (Sweep.start : Sweep V).bars := by
  constructor <;> simp [Sweep.start]

theorem eq_sublevel {S : Set ℕ} {m : V} (hahead : Ahead field.valueAt field.voxels ∅ field.order)
    (h : Ahead field.valueAt field.voxels S
      (field.order.filter fun a => decide (m ≤ field.valueAt a))) :
    S = sublevel field.valueAt field.voxels m := by
  ext a
  have ha := h.mem_iff a
  have hstart := hahead.mem_iff a
  rw [List.mem_filter, decide_eq_true_eq, hstart] at ha
  constructor
  · intro hS
    obtain ⟨hP, -⟩ := h.low a hS
    refine ⟨hP, lt_of_not_ge ?_⟩
    intro hle
    exact (ha.mp ⟨⟨hP, Set.notMem_empty a⟩, hle⟩).2 hS
  · rintro ⟨hP, hlt⟩
    by_contra hS
    exact absurd (ha.mpr ⟨hP, hS⟩).2 (not_le_of_gt hlt)

/-- After the sweep the elders are those of the whole grid, and bars and elders together
count the components at a level and below. -/
theorem WellFormed.swept_spec (h : field.WellFormed) (m : V) :
    ∃ W, Holds field.valueAt field.FaceAdjacent field.voxels W field.swept ∧
      Recorded field.valueAt field.FaceAdjacent field.voxels field.voxels W field.swept.bars ∧
      ∀ l, l ≤ m → account field.valueAt l m W field.swept.bars =
        (componentsBelow field.valueAt field.FaceAdjacent
          (sublevel field.valueAt field.voxels m) l).ncard := by
  have hvoxels : ∀ {S}, Ahead field.valueAt field.voxels S [] → S = field.voxels := by
    intro S hend
    ext a
    have ha := hend.mem_iff a
    simp only [List.not_mem_nil, false_iff, not_and, not_not] at ha
    exact ⟨fun hS => (hend.low a hS).1, ha⟩
  have hsplit := sorted_split h.ahead.sorted m
  have hahead := h.ahead
  rw [hsplit] at hahead
  -- the voxels below the level have recorded no bar that dies at it or later
  obtain ⟨S₁, W₁, hahead₁, hheld₁, hrec₁, -⟩ := Holds.start.run recorded_start hahead
  have hS₁ := eq_sublevel h.ahead hahead₁
  have hnone : ∀ l, barsAt l m ((field.order.filter fun a => decide (field.valueAt a < m)).foldl
      field.sweepVoxel Sweep.start).bars = 0 := by
    intro l
    apply List.countP_eq_zero.mpr
    intro bar hbar hat
    obtain ⟨a, ha, heq⟩ := hrec₁.reached bar hbar
    rw [hS₁] at ha
    have hdeath := (of_decide_eq_true hat).2
    rw [← heq] at hdeath
    exact absurd ha.2 (not_lt_of_ge hdeath)
  -- and the later voxels keep the number of bars and elders
  rw [← List.append_nil (field.order.filter _)] at hahead₁
  obtain ⟨S₂, W₂, hahead₂, hheld₂, hrec₂, hcount⟩ := hheld₁.run hrec₁ hahead₁
  rw [hvoxels hahead₂, ← List.foldl_append, ← hsplit] at hheld₂ hrec₂
  refine ⟨W₂, hheld₂, hrec₂, ?_⟩
  intro l hlm
  rw [← List.foldl_append, ← hsplit] at hcount
  have hlater : ∀ a ∈ field.order.filter fun a => decide (m ≤ field.valueAt a),
      m ≤ field.valueAt a := fun a ha => of_decide_eq_true (List.mem_filter.mp ha).2
  have helders := hheld₁.elders
  rw [hS₁] at helders
  rw [helders.ncard_componentsBelow]
  unfold swept
  rw [hcount l m hlm hlater]
  unfold account
  rw [hnone, Nat.zero_add]

theorem WellFormed.perm_bars (h : field.WellFormed) :
    field.persistence0.Perm (field.swept.bars ++
      (activeRoots field.swept (List.range field.size)).map (essential field.swept)) := by
  rw [← foldl_finish]
  unfold persistence0
  rw [h.asU32_length]
  exact sortByKey_perm Bar.key _

theorem essential_birth {W : Set ℕ}
    (h : Holds field.valueAt field.FaceAdjacent field.voxels W field.swept) {i : ℕ}
    (hi : i ∈ activeRoots field.swept (List.range field.size)) :
    field.swept.birth i = field.valueAt (field.swept.birthIndex i) := by
  rw [activeRoots, List.mem_filter, decide_eq_true_eq, h.active] at hi
  have hbirth := h.birth i hi.2.2
  rwa [hi.2.1] at hbirth

theorem barsAt_essential {W : Set ℕ}
    (h : Holds field.valueAt field.FaceAdjacent field.voxels W field.swept) (l m : V) :
    barsAt l m ((activeRoots field.swept (List.range field.size)).map (essential field.swept)) =
      (sublevel field.valueAt W l).ncard := by
  obtain ⟨hnodup, hmem⟩ := h.essential List.nodup_range fun i => List.mem_range
  rw [ncard_sublevel hnodup hmem, barsAt, List.countP_map, List.countP_map]
  apply List.countP_congr
  intro i hi
  simp [essential, essential_birth h hi]

end VoxelField

/-- At every two levels the bars born below the first that die no earlier than the second
are as many as the components below the second that reach below the first. -/
theorem persistence0_counts {field : VoxelField V} (h : field.WellFormed) {l m : V} (hle : l ≤ m) :
    barsAt l m field.persistence0 = (componentsBelow field.valueAt field.FaceAdjacent
      (sublevel field.valueAt field.voxels m) l).ncard := by
  obtain ⟨W, hheld, -, hcount⟩ := h.swept_spec m
  have hperm : barsAt l m field.persistence0 = barsAt l m (field.swept.bars ++
      (activeRoots field.swept (List.range field.size)).map (essential field.swept)) :=
    h.perm_bars.countP_eq _
  rw [hperm, barsAt_append, VoxelField.barsAt_essential hheld, ← hcount l hle]
  rfl

/-- The bars belong to different voxels. A finite bar is of an elder that dies, and the
voxels of the infinite bars are the elders of the whole grid. -/
theorem persistence0_elders {field : VoxelField V} (h : field.WellFormed) :
    (field.persistence0.map Bar.birthIndex).Nodup ∧
      (∀ bar ∈ field.persistence0, bar.birthIndex ∈ field.voxels ∧
        bar.birth = field.valueAt bar.birthIndex ∧ (bar.death ≠ ⊤ →
          Dies field.valueAt field.FaceAdjacent field.voxels bar.birthIndex bar.death)) ∧
      Elders field.valueAt field.FaceAdjacent field.voxels
        {w | ∃ bar ∈ field.persistence0, bar.death = ⊤ ∧ bar.birthIndex = w} := by
  obtain ⟨W, hheld, hrec, -⟩ := h.swept_spec ⊤
  obtain ⟨hnodup, hmem⟩ := hheld.essential List.nodup_range fun i => List.mem_range
  have hindices : ((activeRoots field.swept (List.range field.size)).map
      (essential field.swept)).map Bar.birthIndex =
        (activeRoots field.swept (List.range field.size)).map field.swept.birthIndex :=
    List.map_map
  have hcases : ∀ bar, bar ∈ field.persistence0 ↔ bar ∈ field.swept.bars ∨
      ∃ i ∈ activeRoots field.swept (List.range field.size), essential field.swept i = bar := by
    intro bar
    rw [h.perm_bars.mem_iff, List.mem_append, List.mem_map]
  have hfinite : ∀ bar ∈ field.swept.bars, bar.death ≠ ⊤ := by
    intro bar hbar
    obtain ⟨a, ha, heq⟩ := hrec.reached bar hbar
    rw [← heq]
    exact ne_of_lt (h.valueAt_lt ha)
  refine ⟨?_, ?_, ?_⟩
  · rw [(h.perm_bars.map Bar.birthIndex).nodup_iff, List.map_append, hindices]
    apply hrec.nodup.append hnodup
    intro w hw hw'
    obtain ⟨bar, hbar, rfl⟩ := List.mem_map.mp hw
    exact hrec.gone bar hbar ((hmem _).mp hw')
  · intro bar hbar
    obtain hbar | ⟨i, hi, rfl⟩ := (hcases bar).mp hbar
    · exact ⟨hrec.mem bar hbar, hrec.birth bar hbar, fun _ => hrec.dies bar hbar⟩
    · have hw := (hmem _).mp (List.mem_map_of_mem hi)
      exact ⟨hheld.elders.subset hw, VoxelField.essential_birth hheld hi,
        fun hdeath => absurd rfl hdeath⟩
  · have hset : {w | ∃ bar ∈ field.persistence0, bar.death = ⊤ ∧ bar.birthIndex = w} = W := by
      ext w
      rw [← hmem w, List.mem_map]
      constructor
      · rintro ⟨bar, hbar, hdeath, rfl⟩
        obtain hbar | ⟨i, hi, rfl⟩ := (hcases bar).mp hbar
        · exact absurd hdeath (hfinite bar hbar)
        · exact ⟨i, hi, rfl⟩
      · rintro ⟨i, hi, rfl⟩
        exact ⟨essential field.swept i, (hcases _).mpr (Or.inr ⟨i, hi, rfl⟩), rfl, rfl⟩
    rw [hset]
    exact hheld.elders

/-- Two pits of different depth that meet across a ridge, beside a corner of equal depth. -/
def ridge : VoxelField (WithTop ℕ) :=
  ⟨3, 2, 1, [1, 5, 2, 5, 6, 1].map ((↑) : ℕ → WithTop ℕ)⟩

theorem ridge_wellFormed : ridge.WellFormed := ⟨by decide, by decide, by decide⟩

theorem persistence0_counts_ridge :
    barsAt 2 5 ridge.persistence0 = (componentsBelow ridge.valueAt ridge.FaceAdjacent
      (sublevel ridge.valueAt ridge.voxels 5) 2).ncard :=
  persistence0_counts ridge_wellFormed (by decide)

theorem persistence0_elders_ridge :
    (ridge.persistence0.map Bar.birthIndex).Nodup ∧
      (∀ bar ∈ ridge.persistence0, bar.birthIndex ∈ ridge.voxels ∧
        bar.birth = ridge.valueAt bar.birthIndex ∧ (bar.death ≠ ⊤ →
          Dies ridge.valueAt ridge.FaceAdjacent ridge.voxels bar.birthIndex bar.death)) ∧
      Elders ridge.valueAt ridge.FaceAdjacent ridge.voxels
        {w | ∃ bar ∈ ridge.persistence0, bar.death = ⊤ ∧ bar.birthIndex = w} :=
  persistence0_elders ridge_wellFormed

end FrankenSim.Voxel
