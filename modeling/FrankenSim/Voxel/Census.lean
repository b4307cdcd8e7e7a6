import FrankenSim.Voxel.Solid
import Mathlib.Algebra.BigOperators.Group.Finset.Basic

/-!
# The census of cells

The solid is a union of closed cubes, and its cells are the faces of these cubes in all
dimensions. The loops over the corners of the grid meet every cell at the corner where it
starts, so the alternating sum of what they count is the Euler characteristic.
-/
namespace FrankenSim.Voxel

variable {V : Type} [LinearOrder V] [OrderTop V]

/-- A cell of the grid: the corner where it starts and the axes along which it extends. -/
structure Cell where
  x : ℕ
  y : ℕ
  z : ℕ
  alongX : Bool
  alongY : Bool
  alongZ : Bool
  deriving DecidableEq

namespace Cell

def dim (cell : Cell) : ℕ := cell.alongX.toNat + cell.alongY.toNat + cell.alongZ.toNat

/-- On one axis a cell is the interval of a voxel, or one of its two ends. -/
def Meets (start : ℕ) (along : Bool) (v : ℕ) : Prop := start = v ∨ along = false ∧ start = v + 1

/-- The cells of the closed cube of a voxel. -/
def IsFaceOf (cell : Cell) (place : ℕ × ℕ × ℕ) : Prop :=
  Meets cell.x cell.alongX place.1 ∧ Meets cell.y cell.alongY place.2.1 ∧
    Meets cell.z cell.alongZ place.2.2

end Cell

def cellsOf (K : Set Cell) (d : ℕ) : Set Cell := {cell ∈ K | cell.dim = d}

/-- The alternating sum over the dimensions of the numbers of cells. -/
noncomputable def eulerCharacteristic (K : Set Cell) : ℤ :=
  ∑ d ∈ Finset.range 4, (-1) ^ d * ((cellsOf K d).ncard : ℤ)

namespace VoxelField

/-- The closed cubical complex of the solid. -/
def complex (field : VoxelField V) (level : Level V) : Set Cell :=
  {cell | ∃ i ∈ field.solid level, cell.IsFaceOf (field.coords i)}

variable {field : VoxelField V} {level : Level V} {x y z : ℕ}

theorem mem_complex {cell : Cell} : cell ∈ field.complex level ↔ ∃ x y z, field.InBox x y z ∧
    field.filled level x y z = true ∧ cell.IsFaceOf (x, y, z) := by
  constructor
  · rintro ⟨i, hi, hface⟩
    exact ⟨_, _, _, inBox_coords hi.1, (filled_coords i).trans hi.2, hface⟩
  · rintro ⟨x, y, z, hbox, hfilled, hface⟩
    refine ⟨field.idx x y z, (mem_solid_idx hbox).mpr hfilled, ?_⟩
    rwa [coords_idx hbox]

omit [LinearOrder V] [OrderTop V] in
theorem mem_corners {corner : ℕ × ℕ × ℕ} : corner ∈ field.corners ↔
    corner.1 ≤ field.nx ∧ corner.2.1 ≤ field.ny ∧ corner.2.2 ≤ field.nz := by
  obtain ⟨x, y, z⟩ := corner
  simp only [corners, List.mem_flatMap, List.mem_map, List.mem_range, Prod.mk.injEq,
    Nat.lt_succ_iff]
  constructor
  · rintro ⟨z', hz, y', hy, x', hx, rfl, rfl, rfl⟩
    exact ⟨hx, hy, hz⟩
  · rintro ⟨hx, hy, hz⟩
    exact ⟨z, hz, y, hy, x, hx, rfl, rfl, rfl⟩

omit [LinearOrder V] [OrderTop V] in
/-- The corners are the places of a box that is larger by one. -/
theorem nodup_corners : field.corners.Nodup :=
  @nodup_cells V ⟨field.nx + 1, field.ny + 1, field.nz + 1, []⟩

theorem corner_mem {cell : Cell} (h : cell ∈ field.complex level) :
    (cell.x, cell.y, cell.z) ∈ field.corners := by
  obtain ⟨x, y, z, hbox, -, hx, hy, hz⟩ := mem_complex.mp h
  obtain ⟨hbx, hby, hbz⟩ := hbox
  rw [mem_corners]
  dsimp only [Cell.Meets] at *
  omega

theorem filledAt_iff (hsized : field.Sized) {x y z : ℤ} (hx : x ≤ field.nx) (hy : y ≤ field.ny)
    (hz : z ≤ field.nz) : field.filledAt level x y z = true ↔ ∃ vx vy vz : ℕ, x = vx ∧ y = vy ∧
      z = vz ∧ field.InBox vx vy vz ∧ field.filled level vx vy vz = true := by
  have hnx := hsized.nx_lt
  have hny := hsized.ny_lt
  have hnz := hsized.nz_lt
  have hword : ∀ {a : ℤ} {n : ℕ}, a ≤ n → n < 2 ^ 32 → asU32 a.toNat = a.toNat := by
    intro a n ha hn
    exact Nat.mod_eq_of_lt (by omega)
  unfold filledAt
  rw [hword hx hnx, hword hy hny, hword hz hnz, Bool.and_eq_true, decide_eq_true_eq]
  constructor
  · rintro ⟨⟨hx0, hy0, hz0, hx, hy, hz⟩, hfilled⟩
    exact ⟨x.toNat, y.toNat, z.toNat, by omega, by omega, by omega, ⟨hx, hy, hz⟩, hfilled⟩
  · rintro ⟨vx, vy, vz, rfl, rfl, rfl, ⟨hx, hy, hz⟩, hfilled⟩
    simp only [Int.toNat_natCast]
    exact ⟨⟨by omega, by omega, by omega, hx, hy, hz⟩, hfilled⟩

/-- From a corner to the intervals that a side of a cell meets. -/
def offsets (along : Bool) : List ℤ := if along then [0] else [-1, 0]

theorem meets_iff {c v : ℕ} {along : Bool} :
    (∃ d ∈ offsets along, (c : ℤ) + d = v) ↔ Cell.Meets c along v := by
  cases along <;> simp only [offsets, Cell.Meets, if_true, Bool.false_eq_true, if_false,
    List.mem_cons, List.not_mem_nil, or_false, exists_eq_or_imp, exists_eq_left, true_and,
    reduceCtorEq, false_and] <;> omega

theorem le_corner {c n : ℕ} {d : ℤ} {along : Bool} (hc : c ≤ n) (hd : d ∈ offsets along) :
    (c : ℤ) + d ≤ n := by
  cases along <;> simp only [offsets, if_true, Bool.false_eq_true, if_false, List.mem_cons,
    List.not_mem_nil, or_false] at hd <;> omega

/-- A cell belongs to the complex when one of the voxels around it is filled. -/
theorem present_iff (hsized : field.Sized) {cell : Cell}
    (h : (cell.x, cell.y, cell.z) ∈ field.corners) :
    (∃ dx ∈ offsets cell.alongX, ∃ dy ∈ offsets cell.alongY, ∃ dz ∈ offsets cell.alongZ,
      field.filledAt level (cell.x + dx) (cell.y + dy) (cell.z + dz) = true) ↔
        cell ∈ field.complex level := by
  obtain ⟨hx, hy, hz⟩ := mem_corners.mp h
  rw [mem_complex]
  constructor
  · rintro ⟨dx, hdx, dy, hdy, dz, hdz, hfilled⟩
    obtain ⟨vx, vy, vz, hvx, hvy, hvz, hbox, hfilled⟩ :=
      (filledAt_iff hsized (le_corner hx hdx) (le_corner hy hdy) (le_corner hz hdz)).mp hfilled
    exact ⟨vx, vy, vz, hbox, hfilled, meets_iff.mp ⟨dx, hdx, hvx⟩, meets_iff.mp ⟨dy, hdy, hvy⟩,
      meets_iff.mp ⟨dz, hdz, hvz⟩⟩
  · rintro ⟨vx, vy, vz, hbox, hfilled, hmx, hmy, hmz⟩
    obtain ⟨dx, hdx, hvx⟩ := meets_iff.mpr hmx
    obtain ⟨dy, hdy, hvy⟩ := meets_iff.mpr hmy
    obtain ⟨dz, hdz, hvz⟩ := meets_iff.mpr hmz
    exact ⟨dx, hdx, dy, hdy, dz, hdz, (filledAt_iff hsized (le_corner hx hdx) (le_corner hy hdy)
      (le_corner hz hdz)).mpr ⟨vx, vy, vz, hvx, hvy, hvz, hbox, hfilled⟩⟩

/-- A side that is an interval starts before the end of the box. -/
theorem start_lt {cell : Cell} (h : cell ∈ field.complex level) :
    (cell.alongX = true → cell.x < field.nx) ∧ (cell.alongY = true → cell.y < field.ny) ∧
      (cell.alongZ = true → cell.z < field.nz) := by
  obtain ⟨x, y, z, ⟨hbx, hby, hbz⟩, -, hx, hy, hz⟩ := mem_complex.mp h
  have hstart : ∀ {c v n : ℕ} {along : Bool}, Cell.Meets c along v → v < n → along = true →
      c < n := by
    rintro c v n along (rfl | ⟨hshort, -⟩) hv hlong
    · exact hv
    · rw [hshort] at hlong
      cases hlong
  exact ⟨hstart hx hbx, hstart hy hby, hstart hz hbz⟩

/-- The vertex at a corner, and the edges and faces that start there. -/
def vertexCell (corner : ℕ × ℕ × ℕ) : Cell :=
  ⟨corner.1, corner.2.1, corner.2.2, false, false, false⟩

def sideCell (sides : ℕ → Bool × Bool × Bool) (corner : ℕ × ℕ × ℕ) (axis : ℕ) : Cell :=
  ⟨corner.1, corner.2.1, corner.2.2, (sides axis).1, (sides axis).2.1, (sides axis).2.2⟩

/-- An edge extends along its axis, and a face along the other two. -/
def edgeSides (axis : ℕ) : Bool × Bool × Bool := (axis == 0, axis == 1, axis == 2)

def faceSides (axis : ℕ) : Bool × Bool × Bool := (axis != 0, axis != 1, axis != 2)

theorem vertexPresent_iff (hsized : field.Sized) (h : (x, y, z) ∈ field.corners) :
    field.vertexPresent level x y z = true ↔ vertexCell (x, y, z) ∈ field.complex level := by
  rw [← present_iff hsized h]
  unfold vertexPresent
  simp only [List.any_eq_true]
  constructor
  · rintro ⟨dz, hdz, dy, hdy, dx, hdx, hfilled⟩
    exact ⟨dx, hdx, dy, hdy, dz, hdz, hfilled⟩
  · rintro ⟨dx, hdx, dy, hdy, dz, hdz, hfilled⟩
    exact ⟨dz, hdz, dy, hdy, dx, hdx, hfilled⟩

theorem axis_cases {axis : ℕ} (h : axis ∈ List.range 3) : axis = 0 ∨ axis = 1 ∨ axis = 2 := by
  rw [List.mem_range] at h
  omega

/-- With the bounds that the loops check, the voxels around a cell decide it. -/
theorem started_iff (hsized : field.Sized) {cell : Cell}
    (h : (cell.x, cell.y, cell.z) ∈ field.corners) :
    ((cell.alongX = true → cell.x < field.nx) ∧ (cell.alongY = true → cell.y < field.ny) ∧
      (cell.alongZ = true → cell.z < field.nz)) ∧
      (∃ dx ∈ offsets cell.alongX, ∃ dy ∈ offsets cell.alongY, ∃ dz ∈ offsets cell.alongZ,
        field.filledAt level (cell.x + dx) (cell.y + dy) (cell.z + dz) = true) ↔
          cell ∈ field.complex level := by
  rw [present_iff hsized h]
  exact and_iff_right_of_imp start_lt

open Classical in
theorem edgesPresent_eq (hsized : field.Sized) (h : (x, y, z) ∈ field.corners) :
    field.edgesPresent level x y z = (((List.range 3).filter fun axis =>
      decide (sideCell edgeSides (x, y, z) axis ∈ field.complex level)).length : ℤ) := by
  unfold edgesPresent
  congr 2
  apply List.filter_congr
  intro axis haxis
  rw [Bool.eq_iff_iff, decide_eq_true_eq, ← started_iff hsized h]
  obtain rfl | rfl | rfl := axis_cases haxis
  · simp [sideCell, edgeSides, offsets]
  · simp [sideCell, edgeSides, offsets]
  · simp [sideCell, edgeSides, offsets]

open Classical in
theorem facesPresent_eq (hsized : field.Sized) (h : (x, y, z) ∈ field.corners) :
    field.facesPresent level x y z = (((List.range 3).filter fun axis =>
      decide (sideCell faceSides (x, y, z) axis ∈ field.complex level)).length : ℤ) := by
  unfold facesPresent
  congr 2
  apply List.filter_congr
  intro axis haxis
  rw [Bool.eq_iff_iff, decide_eq_true_eq, ← started_iff hsized h]
  obtain rfl | rfl | rfl := axis_cases haxis
  · simp [sideCell, faceSides, offsets, sub_eq_add_neg]
  · simp [sideCell, faceSides, offsets, sub_eq_add_neg]
  · simp [sideCell, faceSides, offsets, sub_eq_add_neg]

theorem ncard_listed {α : Type} {l : List α} {p : α → Bool} {f : α → Cell} {T : Set Cell}
    (hnodup : l.Nodup) (hf : ∀ a ∈ l, ∀ b ∈ l, f a = f b → a = b)
    (hT : ∀ cell, cell ∈ T ↔ ∃ a ∈ l, p a = true ∧ f a = cell) :
    T.ncard = (l.filter p).length := by
  have hset : T = (((l.filter p).map f).toFinset : Set Cell) := by
    ext cell
    rw [hT, List.coe_toFinset, Set.mem_ofPred_eq, List.mem_map]
    simp only [List.mem_filter, and_assoc]
  rw [hset, Set.ncard_coe_finset, List.toFinset_card_of_nodup, List.length_map]
  apply List.Nodup.map_on _ (hnodup.filter p)
  intro a ha b hb
  exact hf a (List.mem_filter.mp ha).1 b (List.mem_filter.mp hb).1

/-- Counting on every axis at every corner is counting pairs of a corner and an axis. -/
theorem sum_axes (p : ℕ × ℕ × ℕ → ℕ → Bool) (l : List (ℕ × ℕ × ℕ)) :
    (l.map fun corner => (((List.range 3).filter (p corner)).length : ℤ)).sum =
      ((l ×ˢ List.range 3).filter fun q => p q.1 q.2).length := by
  induction l with
  | nil => rfl
  | cons corner l ih =>
    rw [List.map_cons, List.sum_cons, ih, List.product_cons, List.filter_append,
      List.length_append, List.filter_map, List.length_map, Nat.cast_add]
    rfl

theorem sides_of_dim_zero : ∀ ax ay az : Bool, ax.toNat + ay.toNat + az.toNat = 0 →
    ax = false ∧ ay = false ∧ az = false := by
  decide

theorem count_vertices (hsized : field.Sized) :
    ((field.corners.filter fun p => field.vertexPresent level p.1 p.2.1 p.2.2).length : ℤ) =
      (cellsOf (field.complex level) 0).ncard := by
  congr 1
  refine (@ncard_listed _ _ _ vertexCell _ nodup_corners ?_ ?_).symm
  · rintro ⟨x, y, z⟩ - ⟨x', y', z'⟩ - heq
    obtain ⟨rfl, rfl, rfl, -⟩ := Cell.mk.inj heq
    rfl
  · rintro ⟨x, y, z, ax, ay, az⟩
    constructor
    · rintro ⟨hmem, hdim⟩
      obtain ⟨rfl, rfl, rfl⟩ := sides_of_dim_zero ax ay az hdim
      have hcorner := corner_mem hmem
      exact ⟨(x, y, z), hcorner, (vertexPresent_iff hsized hcorner).mpr hmem, rfl⟩
    · rintro ⟨⟨x', y', z'⟩, hcorner, hpresent, heq⟩
      rw [← heq]
      exact ⟨(vertexPresent_iff hsized hcorner).mp hpresent, rfl⟩

open Classical in
theorem count_sides {sides : ℕ → Bool × Bool × Bool} {d : ℕ}
    (hinj : ∀ a ∈ List.range 3, ∀ b ∈ List.range 3, sides a = sides b → a = b)
    (hdim : ∀ ax ay az : Bool, ax.toNat + ay.toNat + az.toNat = d ↔
      ∃ axis ∈ List.range 3, sides axis = (ax, ay, az)) :
    (field.corners.map fun corner => (((List.range 3).filter fun axis =>
      decide (sideCell sides corner axis ∈ field.complex level)).length : ℤ)).sum =
        (cellsOf (field.complex level) d).ncard := by
  rw [sum_axes fun corner axis => decide (sideCell sides corner axis ∈ field.complex level)]
  congr 1
  refine (@ncard_listed _ _ _ (fun q => sideCell sides q.1 q.2) _
    (nodup_corners.product List.nodup_range) ?_ ?_).symm
  · rintro ⟨⟨x, y, z⟩, a⟩ ha ⟨⟨x', y', z'⟩, b⟩ hb heq
    obtain ⟨rfl, rfl, rfl, hx, hy, hz⟩ := Cell.mk.inj heq
    have hab := hinj a (List.mem_product.mp ha).2 b (List.mem_product.mp hb).2
      (Prod.ext hx (Prod.ext hy hz))
    rw [hab]
  · rintro ⟨x, y, z, ax, ay, az⟩
    constructor
    · rintro ⟨hmem, hcell⟩
      obtain ⟨axis, haxis, hsides⟩ := (hdim ax ay az).mp hcell
      have heq : sideCell sides (x, y, z) axis = ⟨x, y, z, ax, ay, az⟩ := by
        unfold sideCell
        rw [hsides]
      exact ⟨((x, y, z), axis), List.mem_product.mpr ⟨corner_mem hmem, haxis⟩,
        decide_eq_true (heq ▸ hmem), heq⟩
    · rintro ⟨⟨corner, axis⟩, hmem, hpresent, heq⟩
      have haxis := (List.mem_product.mp hmem).2
      rw [← heq]
      exact ⟨of_decide_eq_true hpresent, (hdim _ _ _).mpr ⟨axis, haxis, rfl⟩⟩

theorem count_edges (hsized : field.Sized) :
    (field.corners.map fun p => field.edgesPresent level p.1 p.2.1 p.2.2).sum =
      (cellsOf (field.complex level) 1).ncard := by
  rw [← @count_sides V _ _ field level edgeSides 1 (by decide) (by decide)]
  congr 1
  apply List.map_congr_left
  intro corner hcorner
  exact edgesPresent_eq hsized hcorner

theorem count_faces (hsized : field.Sized) :
    (field.corners.map fun p => field.facesPresent level p.1 p.2.1 p.2.2).sum =
      (cellsOf (field.complex level) 2).ncard := by
  rw [← @count_sides V _ _ field level faceSides 2 (by decide) (by decide)]
  congr 1
  apply List.map_congr_left
  intro corner hcorner
  exact facesPresent_eq hsized hcorner

theorem sides_of_dim_three : ∀ ax ay az : Bool, ax.toNat + ay.toNat + az.toNat = 3 →
    ax = true ∧ ay = true ∧ az = true := by
  decide

theorem count_cubes : (field.cells.filter fun p => field.filled level p.1 p.2.1 p.2.2).length =
    (cellsOf (field.complex level) 3).ncard := by
  refine (@ncard_listed _ _ _ (fun p : ℕ × ℕ × ℕ => (⟨p.1, p.2.1, p.2.2, true, true, true⟩ : Cell)) _
    nodup_cells ?_ ?_).symm
  · rintro ⟨x, y, z⟩ - ⟨x', y', z'⟩ - heq
    obtain ⟨rfl, rfl, rfl, -⟩ := Cell.mk.inj heq
    rfl
  · rintro ⟨x, y, z, ax, ay, az⟩
    constructor
    · rintro ⟨hmem, hdim⟩
      obtain ⟨rfl, rfl, rfl⟩ := sides_of_dim_three ax ay az hdim
      obtain ⟨vx, vy, vz, hbox, hfilled, hx, hy, hz⟩ := mem_complex.mp hmem
      have hlong : ∀ {c v : ℕ}, Cell.Meets c true v → c = v := by
        rintro c v (h | ⟨h, -⟩)
        · exact h
        · cases h
      refine ⟨(vx, vy, vz), mem_cells.mpr hbox, hfilled, ?_⟩
      rw [Cell.mk.injEq]
      exact ⟨(hlong hx).symm, (hlong hy).symm, (hlong hz).symm, rfl, rfl, rfl⟩
    · rintro ⟨⟨x', y', z'⟩, hcell, hfilled, heq⟩
      rw [← heq]
      exact ⟨mem_complex.mpr ⟨x', y', z', mem_cells.mp hcell, hfilled, Or.inl rfl, Or.inl rfl,
        Or.inl rfl⟩, rfl⟩

theorem eulerCharacteristic_complex (hsized : field.Sized) :
    eulerCharacteristic (field.complex level) =
      ((field.corners.filter fun p => field.vertexPresent level p.1 p.2.1 p.2.2).length : ℤ) -
        (field.corners.map fun p => field.edgesPresent level p.1 p.2.1 p.2.2).sum +
        (field.corners.map fun p => field.facesPresent level p.1 p.2.1 p.2.2).sum -
        ((field.cells.filter fun p => field.filled level p.1 p.2.1 p.2.2).length : ℤ) := by
  rw [count_vertices hsized, count_edges hsized, count_faces hsized, count_cubes]
  simp only [eulerCharacteristic, Finset.sum_range_succ, Finset.sum_range_zero]
  ring

end VoxelField

end FrankenSim.Voxel
