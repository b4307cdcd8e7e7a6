import FrankenSim.Voxel.Field
import Mathlib.Data.Nat.Dist

/-!
# The grid of a voxel field

The index of a voxel encodes its place in the box. Two voxels share a face when their
places differ by one along one axis, and they touch when no axis is further apart than
one. The neighbours that the sweep looks at are those that share a face.
-/
namespace FrankenSim.Voxel

open Library

variable {V : Type}

namespace VoxelField

variable (field : VoxelField V)

def size : ℕ := field.nx * field.ny * field.nz

def coords (i : ℕ) : ℕ × ℕ × ℕ := (i % field.nx, i / field.nx % field.ny, i / (field.nx * field.ny))

structure InBox (x y z : ℕ) : Prop where
  x_lt : x < field.nx
  y_lt : y < field.ny
  z_lt : z < field.nz

/-- Voxels of the box that share a face. -/
structure FaceAdjacent (i j : ℕ) : Prop where
  left : i < field.size
  right : j < field.size
  apart : Nat.dist (field.coords i).1 (field.coords j).1 +
    Nat.dist (field.coords i).2.1 (field.coords j).2.1 +
    Nat.dist (field.coords i).2.2 (field.coords j).2.2 = 1

/-- Voxels of the box whose closed cubes have a point in common. -/
structure Touching (i j : ℕ) : Prop where
  left : i < field.size
  right : j < field.size
  apart_x : Nat.dist (field.coords i).1 (field.coords j).1 ≤ 1
  apart_y : Nat.dist (field.coords i).2.1 (field.coords j).2.1 ≤ 1
  apart_z : Nat.dist (field.coords i).2.2 (field.coords j).2.2 ≤ 1

variable {field} {i j x y z : ℕ}

theorem FaceAdjacent.symm (h : field.FaceAdjacent i j) : field.FaceAdjacent j i where
  left := h.right
  right := h.left
  apart := by
    rw [Nat.dist_comm, Nat.dist_comm (field.coords j).2.1, Nat.dist_comm (field.coords j).2.2]
    exact h.apart

theorem Touching.symm (h : field.Touching i j) : field.Touching j i where
  left := h.right
  right := h.left
  apart_x := by
    rw [Nat.dist_comm]
    exact h.apart_x
  apart_y := by
    rw [Nat.dist_comm]
    exact h.apart_y
  apart_z := by
    rw [Nat.dist_comm]
    exact h.apart_z

theorem coords_idx (h : field.InBox x y z) : field.coords (field.idx x y z) = (x, y, z) := by
  have hpos : 0 < field.nx := Nat.zero_lt_of_lt h.x_lt
  have hrow : field.idx x y z / field.nx = z * field.ny + y := by
    unfold idx
    rw [Nat.add_comm, Nat.add_mul_div_right _ _ hpos, Nat.div_eq_of_lt h.x_lt, Nat.zero_add]
  have hx : field.idx x y z % field.nx = x := Nat.mul_add_mod_of_lt h.x_lt
  have hy : (z * field.ny + y) % field.ny = y := Nat.mul_add_mod_of_lt h.y_lt
  have hz : (z * field.ny + y) / field.ny = z := by
    rw [Nat.add_comm, Nat.add_mul_div_right _ _ (Nat.zero_lt_of_lt h.y_lt),
      Nat.div_eq_of_lt h.y_lt, Nat.zero_add]
  unfold coords
  rw [← Nat.div_div_eq_div_mul, hrow, hx, hy, hz]

theorem idx_lt (h : field.InBox x y z) : field.idx x y z < field.size := by
  have hrow : z * field.ny + y + 1 ≤ field.nz * field.ny := by
    have hz := Nat.mul_le_mul_right field.ny h.z_lt
    have hy := h.y_lt
    rw [Nat.succ_mul] at hz
    omega
  have hend := Nat.mul_le_mul_right field.nx hrow
  have hx := h.x_lt
  have hsize : field.nz * field.ny * field.nx = field.size := by
    unfold size
    ring
  rw [Nat.succ_mul, hsize] at hend
  unfold idx
  omega

theorem inBox_coords (hi : i < field.size) :
    field.InBox (field.coords i).1 (field.coords i).2.1 (field.coords i).2.2 := by
  unfold size at hi
  have hxy : 0 < field.nx * field.ny := Nat.pos_of_ne_zero fun h => by simp [h] at hi
  constructor
  · exact Nat.mod_lt _ (Nat.pos_of_mul_pos_right hxy)
  · exact Nat.mod_lt _ (Nat.pos_of_mul_pos_left hxy)
  · exact Nat.div_lt_of_lt_mul hi

theorem idx_coords (i : ℕ) :
    field.idx (field.coords i).1 (field.coords i).2.1 (field.coords i).2.2 = i := by
  unfold idx coords
  rw [← Nat.div_div_eq_div_mul, Nat.div_add_mod', Nat.div_add_mod']

theorem idx_succ_y (x y z : ℕ) : field.idx x (y + 1) z = field.idx x y z + field.nx := by
  unfold idx
  ring

theorem idx_succ_z (x y z : ℕ) :
    field.idx x y (z + 1) = field.idx x y z + field.nx * field.ny := by
  unfold idx
  ring

theorem idx_injective {x' y' z' : ℕ} (h : field.InBox x y z) (h' : field.InBox x' y' z')
    (heq : field.idx x y z = field.idx x' y' z') : (x, y, z) = (x', y', z') := by
  rw [← coords_idx h, ← coords_idx h', heq]

theorem mem_neighbors_idx (h : field.InBox x y z) :
    j ∈ field.neighbors (field.idx x y z) ↔
      (∃ x', x = x' + 1 ∧ j = field.idx x' y z) ∨ (x + 1 < field.nx ∧ j = field.idx (x + 1) y z) ∨
      (∃ y', y = y' + 1 ∧ j = field.idx x y' z) ∨ (y + 1 < field.ny ∧ j = field.idx x (y + 1) z) ∨
      (∃ z', z = z' + 1 ∧ j = field.idx x y z') ∨
      (z + 1 < field.nz ∧ j = field.idx x y (z + 1)) := by
  have hcoords := coords_idx h
  unfold coords at hcoords
  obtain ⟨hx, hyz⟩ := Prod.mk.inj hcoords
  obtain ⟨hy, hz⟩ := Prod.mk.inj hyz
  unfold neighbors
  simp only [hx, hy, hz, List.mem_filterMap, id, exists_eq_right, List.mem_cons,
    List.not_mem_nil, or_false]
  have hback : ∀ (c d : ℕ) (f : ℕ → ℕ), (∀ k, f (k + 1) = f k + d) →
      ((some j = if c > 0 then some (f c - d) else none) ↔ ∃ k, c = k + 1 ∧ j = f k) := by
    intro c d f hf
    cases c with
    | zero => simp
    | succ k =>
      simp only [Nat.succ_pos, if_true, Option.some.injEq, hf, Nat.add_sub_cancel]
      constructor
      · intro hj
        exact ⟨k, rfl, hj⟩
      · rintro ⟨k', hk, hj⟩
        rwa [Nat.succ.inj hk]
  have hforward : ∀ (c m d : ℕ) (f : ℕ → ℕ), (∀ k, f (k + 1) = f k + d) →
      ((some j = if c + 1 < m then some (f c + d) else none) ↔ c + 1 < m ∧ j = f (c + 1)) := by
    intro c m d f hf
    rw [hf]
    split
    case isTrue hlt => simp [hlt]
    case isFalse hlt => simp [hlt]
  rw [hback x 1 (fun x => field.idx x y z) fun _ => rfl,
    hforward x field.nx 1 (fun x => field.idx x y z) fun _ => rfl,
    hback y field.nx (fun y => field.idx x y z) fun _ => idx_succ_y _ _ _,
    hforward y field.ny field.nx (fun y => field.idx x y z) fun _ => idx_succ_y _ _ _,
    hback z (field.nx * field.ny) (fun z => field.idx x y z) fun _ => idx_succ_z _ _ _,
    hforward z field.nz (field.nx * field.ny) (fun z => field.idx x y z) fun _ => idx_succ_z _ _ _]

theorem dist_eq_one {a b : ℕ} (h : Nat.dist a b = 1) : a = b + 1 ∨ b = a + 1 := by
  unfold Nat.dist at h
  omega

/-- Places one step apart differ on one axis only. -/
theorem taxicab_eq_one {x y z x' y' z' : ℕ}
    (h : Nat.dist x x' + Nat.dist y y' + Nat.dist z z' = 1) :
    (Nat.dist x x' = 1 ∧ y = y' ∧ z = z') ∨ (x = x' ∧ Nat.dist y y' = 1 ∧ z = z') ∨
      (x = x' ∧ y = y' ∧ Nat.dist z z' = 1) := by
  have hx : Nat.dist x x' = 0 → x = x' := Nat.eq_of_dist_eq_zero
  have hy : Nat.dist y y' = 0 → y = y' := Nat.eq_of_dist_eq_zero
  have hz : Nat.dist z z' = 0 → z = z' := Nat.eq_of_dist_eq_zero
  omega

/-- The neighbours that the sweep looks at are the voxels across the faces. -/
theorem mem_neighbors_iff (hi : i < field.size) :
    j ∈ field.neighbors i ↔ field.FaceAdjacent i j := by
  have hbox := inBox_coords hi
  have hindex := @idx_coords _ field i
  constructor
  · intro hj
    rw [← hindex, mem_neighbors_idx hbox] at hj
    generalize hc : field.coords i = c at *
    obtain ⟨x, y, z⟩ := c
    have hat : ∀ {x' y' z'}, field.InBox x' y' z' → j = field.idx x' y' z' →
        Nat.dist x x' + Nat.dist y y' + Nat.dist z z' = 1 → field.FaceAdjacent i j := by
      intro x' y' z' hbox' hj hdist
      refine ⟨hi, hj ▸ idx_lt hbox', ?_⟩
      rw [hc, hj, coords_idx hbox']
      exact hdist
    obtain ⟨x', rfl, hj⟩ | ⟨hlt, hj⟩ | ⟨y', rfl, hj⟩ | ⟨hlt, hj⟩ | ⟨z', rfl, hj⟩ | ⟨hlt, hj⟩ := hj
    · exact hat ⟨Nat.lt_of_succ_lt hbox.x_lt, hbox.y_lt, hbox.z_lt⟩ hj (by simp [Nat.dist])
    · exact hat ⟨hlt, hbox.y_lt, hbox.z_lt⟩ hj (by simp [Nat.dist])
    · exact hat ⟨hbox.x_lt, Nat.lt_of_succ_lt hbox.y_lt, hbox.z_lt⟩ hj (by simp [Nat.dist])
    · exact hat ⟨hbox.x_lt, hlt, hbox.z_lt⟩ hj (by simp [Nat.dist])
    · exact hat ⟨hbox.x_lt, hbox.y_lt, Nat.lt_of_succ_lt hbox.z_lt⟩ hj (by simp [Nat.dist])
    · exact hat ⟨hbox.x_lt, hbox.y_lt, hlt⟩ hj (by simp [Nat.dist])
  · intro hadj
    have hbox' := inBox_coords hadj.right
    have hindex' := @idx_coords _ field j
    have hapart := hadj.apart
    rw [← hindex, mem_neighbors_idx hbox]
    generalize field.coords i = c at *
    generalize field.coords j = c' at *
    obtain ⟨x, y, z⟩ := c
    obtain ⟨x', y', z'⟩ := c'
    dsimp only at hapart hindex' hbox'
    obtain ⟨hx, rfl, rfl⟩ | ⟨rfl, hy, rfl⟩ | ⟨rfl, rfl, hz⟩ := taxicab_eq_one hapart
    · obtain rfl | rfl := dist_eq_one hx
      · exact Or.inl ⟨x', rfl, hindex'.symm⟩
      · exact Or.inr (Or.inl ⟨hbox'.x_lt, hindex'.symm⟩)
    · obtain rfl | rfl := dist_eq_one hy
      · exact Or.inr (Or.inr (Or.inl ⟨y', rfl, hindex'.symm⟩))
      · exact Or.inr (Or.inr (Or.inr (Or.inl ⟨hbox'.y_lt, hindex'.symm⟩)))
    · obtain rfl | rfl := dist_eq_one hz
      · exact Or.inr (Or.inr (Or.inr (Or.inr (Or.inl ⟨z', rfl, hindex'.symm⟩))))
      · exact Or.inr (Or.inr (Or.inr (Or.inr (Or.inr ⟨hbox'.z_lt, hindex'.symm⟩))))

end VoxelField

end FrankenSim.Voxel
