import FrankenSim.Library.Components
import FrankenSim.Voxel.Grid

/-!
# The components of the solid

The voxels below a level are united with the touching voxels that were visited before.
Visiting goes by index, so every touching pair is united from its later voxel, and the
roots that are counted are one voxel from every component.
-/
namespace FrankenSim.Voxel

open Library

variable {V : Type} [LinearOrder V] [OrderTop V]

namespace VoxelField

/-- The values fill the box. The box is measured in words, and the indices of the voxels
with the outside behind them fit words. -/
structure Sized (field : VoxelField V) : Prop where
  filled : field.values.length = field.size
  fits : field.size + 1 < 2 ^ 32
  nx_lt : field.nx < 2 ^ 32
  ny_lt : field.ny < 2 ^ 32
  nz_lt : field.nz < 2 ^ 32

/-- The voxels of the solid, and the empty ones. -/
def solid (field : VoxelField V) (level : Level V) : Set ℕ :=
  {i | i < field.size ∧ below (field.valueAt i) level = true}

def empties (field : VoxelField V) (level : Level V) : Set ℕ :=
  {i | i < field.size ∧ below (field.valueAt i) level = false}

variable {field : VoxelField V} {level : Level V} {i j x y z : ℕ}

omit [LinearOrder V] [OrderTop V] in
theorem Sized.asU32 (h : field.Sized) (hi : i ≤ field.size) : asU32 i = i := by
  have hfits := h.fits
  exact Nat.mod_eq_of_lt (by omega)

omit [LinearOrder V] [OrderTop V] in
theorem mem_cells {cell : ℕ × ℕ × ℕ} :
    cell ∈ field.cells ↔ field.InBox cell.1 cell.2.1 cell.2.2 := by
  obtain ⟨x, y, z⟩ := cell
  simp only [cells, List.mem_flatMap, List.mem_map, List.mem_range, Prod.mk.injEq]
  constructor
  · rintro ⟨z', hz, y', hy, x', hx, rfl, rfl, rfl⟩
    exact ⟨hx, hy, hz⟩
  · rintro ⟨hx, hy, hz⟩
    exact ⟨z, hz, y, hy, x, hx, rfl, rfl, rfl⟩

omit [LinearOrder V] [OrderTop V] in
theorem nodup_cells : field.cells.Nodup := by
  unfold cells
  apply List.nodup_flatMap.mpr
  constructor
  · intro z _
    apply List.nodup_flatMap.mpr
    constructor
    · intro y _
      exact List.nodup_range.map fun a b hab => (Prod.mk.inj hab).1
    · apply List.nodup_range.imp
      intro y y' hne cell hcell hcell'
      obtain ⟨x, -, rfl⟩ := List.mem_map.mp hcell
      obtain ⟨x', -, heq⟩ := List.mem_map.mp hcell'
      exact hne (Prod.mk.inj (Prod.mk.inj heq).2).1.symm
  · apply List.nodup_range.imp
    intro z z' hne cell hcell hcell'
    simp only [List.mem_flatMap, List.mem_map] at hcell hcell'
    obtain ⟨y, -, x, -, rfl⟩ := hcell
    obtain ⟨y', -, x', -, heq⟩ := hcell'
    exact hne (Prod.mk.inj (Prod.mk.inj heq).2).2.symm

def index (field : VoxelField V) (cell : ℕ × ℕ × ℕ) : ℕ := field.idx cell.1 cell.2.1 cell.2.2

omit [LinearOrder V] [OrderTop V] in
theorem index_coords (i : ℕ) : field.index (field.coords i) = i := idx_coords i

theorem mem_solid_idx (h : field.InBox x y z) :
    field.idx x y z ∈ field.solid level ↔ field.filled level x y z = true :=
  and_iff_right (idx_lt h)

theorem mem_empties_idx (h : field.InBox x y z) :
    field.idx x y z ∈ field.empties level ↔ field.filled level x y z = false :=
  and_iff_right (idx_lt h)

theorem filled_coords (i : ℕ) :
    field.filled level (field.coords i).1 (field.coords i).2.1 (field.coords i).2.2 =
      below (field.valueAt i) level := by
  unfold filled
  rw [idx_coords]

omit [LinearOrder V] [OrderTop V] in
/-- The indices of the places that pass a test are the voxels of a set, each once. -/
theorem ncard_cells {p : ℕ × ℕ × ℕ → Bool} {T : Set ℕ}
    (hT : ∀ i, i ∈ T ↔ i < field.size ∧ p (field.coords i) = true) :
    T.ncard = (field.cells.filter p).length := by
  have hset : T = (((field.cells.filter p).map field.index).toFinset : Set ℕ) := by
    ext i
    rw [hT, List.coe_toFinset, Set.mem_ofPred_eq, List.mem_map]
    constructor
    · rintro ⟨hi, hp⟩
      exact ⟨field.coords i, List.mem_filter.mpr ⟨mem_cells.mpr (inBox_coords hi), hp⟩,
        index_coords i⟩
    · rintro ⟨cell, hcell, rfl⟩
      obtain ⟨hbox, hp⟩ := List.mem_filter.mp hcell
      have hcoords : field.coords (field.index cell) = cell := coords_idx (mem_cells.mp hbox)
      rw [hcoords]
      exact ⟨idx_lt (mem_cells.mp hbox), hp⟩
  rw [hset, Set.ncard_coe_finset, List.toFinset_card_of_nodup, List.length_map]
  apply List.Nodup.map_on _ (nodup_cells.filter p)
  intro a ha b hb hab
  exact idx_injective (mem_cells.mp (List.mem_filter.mp ha).1)
    (mem_cells.mp (List.mem_filter.mp hb).1) hab

/-- The pair that one offset of the stencil unites. -/
def neighborPair (field : VoxelField V) (level : Level V) (cell : ℕ × ℕ × ℕ)
    (offset : ℤ × ℤ × ℤ) : List (ℕ × ℕ) :=
  let nxp := (cell.1 : ℤ) + offset.2.2
  let nyp := (cell.2.1 : ℤ) + offset.2.1
  let nzp := (cell.2.2 : ℤ) + offset.1
  if nxp < 0 ∨ nyp < 0 ∨ nzp < 0 then []
  else if nxp.toNat ≥ field.nx ∨ nyp.toNat ≥ field.ny ∨ nzp.toNat ≥ field.nz then []
  else if field.filled level nxp.toNat nyp.toNat nzp.toNat then
    [(asU32 (field.idx cell.1 cell.2.1 cell.2.2),
      asU32 (field.idx nxp.toNat nyp.toNat nzp.toNat))]
  else []

def solidPairs (field : VoxelField V) (level : Level V) (cell : ℕ × ℕ × ℕ) : List (ℕ × ℕ) :=
  if field.filled level cell.1 cell.2.1 cell.2.2 then
    backward26.flatMap (field.neighborPair level cell)
  else []

theorem uniteNeighbor_eq (cell : ℕ × ℕ × ℕ) (uf : UnionFind) (offset : ℤ × ℤ × ℤ) :
    field.uniteNeighbor level cell uf offset =
      uf.unionAll (field.neighborPair level cell offset) := by
  unfold uniteNeighbor neighborPair
  dsimp only
  split
  case isTrue => rfl
  case isFalse =>
    split
    case isTrue => rfl
    case isFalse =>
      split
      case isTrue => rfl
      case isFalse => rfl

theorem foldl_uniteNeighbor (cell : ℕ × ℕ × ℕ) (offsets : List (ℤ × ℤ × ℤ)) (uf : UnionFind) :
    offsets.foldl (field.uniteNeighbor level cell) uf =
      uf.unionAll (offsets.flatMap (field.neighborPair level cell)) := by
  induction offsets generalizing uf with
  | nil => rfl
  | cons offset offsets ih =>
    rw [List.foldl_cons, ih, uniteNeighbor_eq, List.flatMap_cons]
    exact (List.foldl_append ..).symm

theorem foldl_uniteSolid (cells : List (ℕ × ℕ × ℕ)) (uf : UnionFind) (count : ℕ) :
    cells.foldl (field.uniteSolid level) (uf, count) =
      (uf.unionAll (cells.flatMap (field.solidPairs level)),
        count + (cells.filter fun cell => field.filled level cell.1 cell.2.1 cell.2.2).length) := by
  induction cells generalizing uf count with
  | nil => rfl
  | cons cell cells ih =>
    rw [List.foldl_cons, List.flatMap_cons, uniteSolid]
    by_cases hfilled : field.filled level cell.1 cell.2.1 cell.2.2 = true
    · rw [List.filter_cons, if_pos hfilled, List.length_cons, solidPairs, if_pos hfilled,
        if_neg (by simp [hfilled]), ih, foldl_uniteNeighbor]
      exact Prod.ext (List.foldl_append ..).symm (by dsimp only; omega)
    · rw [List.filter_cons, if_neg hfilled, solidPairs, if_neg hfilled, if_pos (by simp [hfilled]),
        ih]
      rfl

theorem mem_neighborPair (hsized : field.Sized) {a b : ℕ} {offset : ℤ × ℤ × ℤ}
    (h : field.InBox x y z) :
    (a, b) ∈ field.neighborPair level (x, y, z) offset ↔
      ∃ x' y' z' : ℕ, (x' : ℤ) = x + offset.2.2 ∧ (y' : ℤ) = y + offset.2.1 ∧
        (z' : ℤ) = z + offset.1 ∧ field.InBox x' y' z' ∧ field.filled level x' y' z' = true ∧
        a = field.idx x y z ∧ b = field.idx x' y' z' := by
  have hidx : ∀ {x y z}, field.InBox x y z → asU32 (field.idx x y z) = field.idx x y z :=
    fun h => hsized.asU32 (Nat.le_of_lt (idx_lt h))
  unfold neighborPair
  dsimp only
  constructor
  · intro hmem
    split at hmem
    case isTrue => cases hmem
    case isFalse hneg =>
      split at hmem
      case isTrue => cases hmem
      case isFalse hout =>
        split at hmem
        case isFalse => cases hmem
        case isTrue hfilled =>
          have hbox : field.InBox ((x : ℤ) + offset.2.2).toNat ((y : ℤ) + offset.2.1).toNat
              ((z : ℤ) + offset.1).toNat := ⟨by omega, by omega, by omega⟩
          rw [List.mem_singleton, hidx h, hidx hbox, Prod.mk.injEq] at hmem
          exact ⟨_, _, _, by omega, by omega, by omega, hbox, hfilled, hmem.1, hmem.2⟩
  · rintro ⟨x', y', z', hx, hy, hz, hbox, hfilled, rfl, rfl⟩
    have hbox' := hbox
    obtain ⟨hx', hy', hz'⟩ := hbox'
    rw [← hx, ← hy, ← hz, if_neg (by omega), Int.toNat_natCast, Int.toNat_natCast,
      Int.toNat_natCast, if_neg (by omega), if_pos hfilled, hidx h, hidx hbox]
    exact List.mem_singleton_self _

/-- Among two different touching places one is in the stencil of the other. -/
theorem backward26_complete : ∀ dz ∈ ([-1, 0, 1] : List ℤ), ∀ dy ∈ ([-1, 0, 1] : List ℤ),
    ∀ dx ∈ ([-1, 0, 1] : List ℤ), (dz, dy, dx) = (0, 0, 0) ∨ (dz, dy, dx) ∈ backward26 ∨
      (-dz, -dy, -dx) ∈ backward26 := by
  decide

theorem backward26_le : ∀ offset ∈ backward26, offset.1 ∈ ([-1, 0, 1] : List ℤ) ∧
    offset.2.1 ∈ ([-1, 0, 1] : List ℤ) ∧ offset.2.2 ∈ ([-1, 0, 1] : List ℤ) := by
  decide

theorem dist_le_one {a b : ℕ} (h : Nat.dist a b ≤ 1) :
    (b : ℤ) - a ∈ ([-1, 0, 1] : List ℤ) := by
  unfold Nat.dist at h
  simp only [List.mem_cons, List.not_mem_nil, or_false]
  omega

theorem dist_of_offset {a b : ℕ} {d : ℤ} (hd : d ∈ ([-1, 0, 1] : List ℤ)) (h : (b : ℤ) = a + d) :
    Nat.dist a b ≤ 1 := by
  simp only [List.mem_cons, List.not_mem_nil, or_false] at hd
  unfold Nat.dist
  omega

def allSolidPairs (field : VoxelField V) (level : Level V) : List (ℕ × ℕ) :=
  field.cells.flatMap (field.solidPairs level)

theorem mem_allSolidPairs (hsized : field.Sized) {a b : ℕ} :
    (a, b) ∈ field.allSolidPairs level ↔ ∃ x y z x' y' z' : ℕ, field.InBox x y z ∧
      field.InBox x' y' z' ∧ field.filled level x y z = true ∧ field.filled level x' y' z' = true ∧
      ((z' : ℤ) - z, (y' : ℤ) - y, (x' : ℤ) - x) ∈ backward26 ∧ a = field.idx x y z ∧
      b = field.idx x' y' z' := by
  unfold allSolidPairs
  rw [List.mem_flatMap]
  constructor
  · rintro ⟨⟨x, y, z⟩, hcell, hmem⟩
    have hbox := mem_cells.mp hcell
    unfold solidPairs at hmem
    split at hmem
    case isFalse => cases hmem
    case isTrue hfilled =>
      obtain ⟨⟨dz, dy, dx⟩, hoffset, hmem⟩ := List.mem_flatMap.mp hmem
      obtain ⟨x', y', z', hx, hy, hz, hbox', hfilled', ha, hb⟩ :=
        (mem_neighborPair hsized hbox).mp hmem
      refine ⟨x, y, z, x', y', z', hbox, hbox', hfilled, hfilled', ?_, ha, hb⟩
      rw [hx, hy, hz]
      simpa using hoffset
  · rintro ⟨x, y, z, x', y', z', hbox, hbox', hfilled, hfilled', hoffset, rfl, rfl⟩
    refine ⟨(x, y, z), mem_cells.mpr hbox, ?_⟩
    unfold solidPairs
    rw [if_pos hfilled]
    apply List.mem_flatMap.mpr
    refine ⟨_, hoffset, (mem_neighborPair hsized hbox).mpr ?_⟩
    exact ⟨x', y', z', by simp, by simp, by simp, hbox', hfilled', rfl, rfl⟩

/-- The united pairs generate that touching voxels of the solid are joined. -/
theorem joined_solid (hsized : field.Sized) (a b : ℕ) :
    Relation.EqvGen (fun x y => (x, y) ∈ field.allSolidPairs level) a b ↔
      Library.Joined field.Touching (field.solid level) a b := by
  constructor
  · apply Relation.EqvGen.mono
    intro a b hmem
    obtain ⟨x, y, z, x', y', z', hbox, hbox', hfilled, hfilled', hoffset, rfl, rfl⟩ :=
      (mem_allSolidPairs hsized).mp hmem
    obtain ⟨hz, hy, hx⟩ := backward26_le _ hoffset
    refine ⟨(mem_solid_idx hbox).mpr hfilled, (mem_solid_idx hbox').mpr hfilled', ?_⟩
    refine ⟨idx_lt hbox, idx_lt hbox', ?_, ?_, ?_⟩ <;> rw [coords_idx hbox, coords_idx hbox']
    · exact dist_of_offset hx (by simp)
    · exact dist_of_offset hy (by simp)
    · exact dist_of_offset hz (by simp)
  · intro h
    induction h with
    | rel a b h =>
      obtain ⟨ha, hb, htouch⟩ := h
      have hboxa := inBox_coords ha.1
      have hboxb := inBox_coords hb.1
      have ha' := (filled_coords a).trans ha.2
      have hb' := (filled_coords b).trans hb.2
      obtain heq | hab | hba := backward26_complete _ (dist_le_one htouch.apart_z) _
        (dist_le_one htouch.apart_y) _ (dist_le_one htouch.apart_x)
      · have hcoords : field.coords a = field.coords b := by
          simp only [Prod.mk.injEq] at heq
          apply Prod.ext
          · omega
          · apply Prod.ext <;> omega
        rw [← @index_coords V field a, hcoords, index_coords b]
        exact Relation.EqvGen.refl b
      · apply Relation.EqvGen.rel
        exact (mem_allSolidPairs hsized).mpr ⟨_, _, _, _, _, _, hboxa, hboxb, ha', hb', hab,
          (idx_coords a).symm, (idx_coords b).symm⟩
      · apply Relation.EqvGen.symm
        apply Relation.EqvGen.rel
        rw [neg_sub, neg_sub, neg_sub] at hba
        exact (mem_allSolidPairs hsized).mpr ⟨_, _, _, _, _, _, hboxb, hboxa, hb', ha', hba,
          (idx_coords b).symm, (idx_coords a).symm⟩
    | refl a => exact Relation.EqvGen.refl a
    | symm _ _ _ ih => exact ih.symm
    | trans _ _ _ _ _ ih ih' => exact ih.trans _ _ _ ih'

theorem foldl_countSolid (hsized : field.Sized) {cells : List (ℕ × ℕ × ℕ)}
    (hcells : ∀ cell ∈ cells, cell ∈ field.cells) (uf : UnionFind) (count : ℕ) :
    (cells.foldl (field.countSolid level) (uf, count)).2 =
      count + (cells.filter fun cell => field.filled level cell.1 cell.2.1 cell.2.2 &&
        decide (uf.root (field.index cell) = field.index cell)).length := by
  induction cells generalizing uf count with
  | nil => rfl
  | cons cell cells ih =>
    have hcell := idx_lt (mem_cells.mp (hcells cell List.mem_cons_self))
    have hrest : ∀ c ∈ cells, c ∈ field.cells := fun c hc => hcells c (List.mem_cons_of_mem _ hc)
    rw [List.foldl_cons, countSolid, hsized.asU32 (Nat.le_of_lt hcell)]
    dsimp only
    by_cases hfilled : field.filled level cell.1 cell.2.1 cell.2.2 = true
    · rw [if_pos hfilled, ih hrest, UnionFind.find_snd]
      simp only [UnionFind.find_root]
      by_cases hroot : uf.root (field.idx cell.1 cell.2.1 cell.2.2) =
          field.idx cell.1 cell.2.1 cell.2.2
      · rw [List.filter_cons_of_pos (by simp [hfilled, index, hroot]), if_pos hroot,
          List.length_cons]
        omega
      · rw [List.filter_cons_of_neg (by simp [index, hroot]), if_neg hroot]
    · rw [if_neg hfilled, ih hrest, List.filter_cons_of_neg (by simp [hfilled])]

theorem count_solid (hsized : field.Sized) :
    (field.cells.foldl (field.countSolid level)
      (UnionFind.new.unionAll (field.allSolidPairs level), 0)).2 =
        (components field.Touching (field.solid level)).ncard := by
  have htracks := (UnionFind.tracks_unionAll (field.allSolidPairs level)).congr
    (joined_solid hsized)
  generalize UnionFind.new.unionAll (field.allSolidPairs level) = uf at htracks
  have htransversal : Transversal field.Touching (field.solid level)
      {i | i ∈ field.solid level ∧ uf.root i = i} := by
    constructor
    · exact fun i hi => hi.1
    · intro i hi
      have hjoined := (htracks (uf.root i) i).mp (UnionFind.root_root uf i)
      exact ⟨uf.root i, ⟨(Library.Joined.mem_iff hjoined).mpr hi, UnionFind.root_root uf i⟩,
        hjoined⟩
    · intro i hi j hj hjoined
      have hroot := (htracks i j).mpr hjoined
      rwa [hi.2, hj.2] at hroot
  rw [foldl_countSolid hsized fun _ h => h, Nat.zero_add, htransversal.ncard_components]
  refine (ncard_cells ?_).symm
  intro i
  rw [Bool.and_eq_true, decide_eq_true_eq, index_coords, filled_coords]
  exact and_assoc

end VoxelField

end FrankenSim.Voxel
