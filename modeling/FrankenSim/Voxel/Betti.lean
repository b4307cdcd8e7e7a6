import FrankenSim.Voxel.Census
import FrankenSim.Voxel.Solid

/-!
# The cavities of the solid and the Betti numbers that are returned

The empty voxels are united across faces, and those at the border with one index that
stands for the outside. The roots that are counted are one voxel from every component of
the empty voxels that does not come to the border. The first number is that of the
components of the solid under touching, the last that of the cavities, and the one between
them closes the Euler characteristic of the cubical complex.
-/
namespace FrankenSim.Voxel

open Library

variable {V : Type} [LinearOrder V] [OrderTop V]

namespace VoxelField

def Border (field : VoxelField V) (i : ℕ) : Prop :=
  (field.coords i).1 = 0 ∨ (field.coords i).2.1 = 0 ∨ (field.coords i).2.2 = 0 ∨
    (field.coords i).1 + 1 = field.nx ∨ (field.coords i).2.1 + 1 = field.ny ∨
    (field.coords i).2.2 + 1 = field.nz

/-- The components of the empty voxels that do not come to the border. -/
def cavities (field : VoxelField V) (level : Level V) : Set (Set ℕ) :=
  {C ∈ components field.FaceAdjacent (field.empties level) | ∀ i ∈ C, ¬ field.Border i}

def voidPairs (field : VoxelField V) (level : Level V) (outside : ℕ) (cell : ℕ × ℕ × ℕ) :
    List (ℕ × ℕ) :=
  let (x, y, z) := cell
  if field.filled level x y z then []
  else
    let i := asU32 (field.idx x y z)
    (if x = 0 ∨ y = 0 ∨ z = 0 ∨ x = field.nx - 1 ∨ y = field.ny - 1 ∨ z = field.nz - 1 then
      [(i, outside)] else []) ++
    (if x > 0 ∧ field.filled level (x - 1) y z = false then
      [(i, asU32 (field.idx (x - 1) y z))] else []) ++
    (if y > 0 ∧ field.filled level x (y - 1) z = false then
      [(i, asU32 (field.idx x (y - 1) z))] else []) ++
    (if z > 0 ∧ field.filled level x y (z - 1) = false then
      [(i, asU32 (field.idx x y (z - 1)))] else [])

variable {field : VoxelField V} {level : Level V} {i j x y z : ℕ}

theorem unionAll_append (uf : UnionFind) (pairs pairs' : List (ℕ × ℕ)) :
    uf.unionAll (pairs ++ pairs') = (uf.unionAll pairs).unionAll pairs' := List.foldl_append ..

theorem unionAll_ite {c : Prop} [Decidable c] (uf : UnionFind) (a b : ℕ) :
    uf.unionAll (if c then [(a, b)] else []) = if c then (uf.union a b).1 else uf := by
  split <;> rfl

theorem uniteVoid_eq (outside : ℕ) (uf : UnionFind) (cell : ℕ × ℕ × ℕ) :
    field.uniteVoid level outside uf cell = uf.unionAll (field.voidPairs level outside cell) := by
  obtain ⟨x, y, z⟩ := cell
  unfold uniteVoid voidPairs
  dsimp only
  by_cases hfilled : field.filled level x y z = true
  · rw [if_pos hfilled, if_pos hfilled]
    rfl
  · rw [if_neg hfilled, if_neg hfilled, unionAll_append, unionAll_append, unionAll_append,
      unionAll_ite, unionAll_ite, unionAll_ite, unionAll_ite]

theorem foldl_uniteVoid (outside : ℕ) (cells : List (ℕ × ℕ × ℕ)) (uf : UnionFind) :
    cells.foldl (field.uniteVoid level outside) uf =
      uf.unionAll (cells.flatMap (field.voidPairs level outside)) := by
  induction cells generalizing uf with
  | nil => rfl
  | cons cell cells ih => rw [List.foldl_cons, ih, uniteVoid_eq, List.flatMap_cons, unionAll_append]

def allVoidPairs (field : VoxelField V) (level : Level V) : List (ℕ × ℕ) :=
  field.cells.flatMap (field.voidPairs level field.size)

theorem mem_ite_pair {c : Prop} [Decidable c] {a b a' b' : ℕ} :
    (a, b) ∈ (if c then [(a', b')] else []) ↔ c ∧ a = a' ∧ b = b' := by
  by_cases hc : c
  · rw [if_pos hc, List.mem_singleton, Prod.mk.injEq]
    exact (and_iff_right hc).symm
  · rw [if_neg hc]
    exact iff_of_false List.not_mem_nil fun h => hc h.1

theorem mem_voidPairs (hsized : field.Sized) {a b : ℕ} (h : field.InBox x y z) :
    (a, b) ∈ field.voidPairs level field.size (x, y, z) ↔
      field.filled level x y z = false ∧ a = field.idx x y z ∧
        ((field.Border a ∧ b = field.size) ∨
          (∃ x', x = x' + 1 ∧ field.filled level x' y z = false ∧ b = field.idx x' y z) ∨
          (∃ y', y = y' + 1 ∧ field.filled level x y' z = false ∧ b = field.idx x y' z) ∨
          ∃ z', z = z' + 1 ∧ field.filled level x y z' = false ∧ b = field.idx x y z') := by
  have hidx : ∀ {x y z}, field.InBox x y z → asU32 (field.idx x y z) = field.idx x y z :=
    fun h => hsized.asU32 (Nat.le_of_lt (idx_lt h))
  have hborder : (x = 0 ∨ y = 0 ∨ z = 0 ∨ x = field.nx - 1 ∨ y = field.ny - 1 ∨
      z = field.nz - 1) ↔ field.Border (field.idx x y z) := by
    unfold Border
    rw [coords_idx h]
    obtain ⟨hx, hy, hz⟩ := h
    dsimp only
    omega
  have hlower : ∀ (c : ℕ) (f : ℕ → ℕ) (p : ℕ → Bool), (∀ k, c = k + 1 → asU32 (f k) = f k) →
      (((c > 0 ∧ p (c - 1) = false) ∧ a = field.idx x y z ∧ b = asU32 (f (c - 1))) ↔
        a = field.idx x y z ∧ ∃ k, c = k + 1 ∧ p k = false ∧ b = f k) := by
    intro c f p hf
    cases c with
    | zero => simp
    | succ k =>
      rw [Nat.add_sub_cancel, hf k rfl]
      constructor
      · rintro ⟨⟨-, hp⟩, ha, hb⟩
        exact ⟨ha, k, rfl, hp, hb⟩
      · rintro ⟨ha, k', hk, hp, hb⟩
        rw [← Nat.succ.inj hk] at hp hb
        exact ⟨⟨Nat.succ_pos k, hp⟩, ha, hb⟩
  have hx := hlower x (fun k => field.idx k y z) (fun k => field.filled level k y z) (by
    rintro k rfl
    exact hidx ⟨Nat.lt_of_succ_lt h.x_lt, h.y_lt, h.z_lt⟩)
  have hy := hlower y (fun k => field.idx x k z) (fun k => field.filled level x k z) (by
    rintro k rfl
    exact hidx ⟨h.x_lt, Nat.lt_of_succ_lt h.y_lt, h.z_lt⟩)
  have hz := hlower z (fun k => field.idx x y k) (fun k => field.filled level x y k) (by
    rintro k rfl
    exact hidx ⟨h.x_lt, h.y_lt, Nat.lt_of_succ_lt h.z_lt⟩)
  unfold voidPairs
  dsimp only
  rw [hidx h]
  by_cases hfilled : field.filled level x y z = true
  · rw [if_pos hfilled]
    exact iff_of_false (List.not_mem_nil) fun hcase => by simp [hfilled] at hcase
  · rw [if_neg hfilled, List.mem_append, List.mem_append, List.mem_append, mem_ite_pair,
      mem_ite_pair, mem_ite_pair, mem_ite_pair, hx, hy, hz, hborder,
      and_iff_right (Bool.eq_false_of_not_eq_true hfilled), or_assoc, or_assoc]
    constructor
    · rintro (⟨hb, ha, hb'⟩ | ⟨ha, hb⟩ | ⟨ha, hb⟩ | ⟨ha, hb⟩)
      · exact ⟨ha, Or.inl ⟨ha ▸ hb, hb'⟩⟩
      · exact ⟨ha, Or.inr (Or.inl hb)⟩
      · exact ⟨ha, Or.inr (Or.inr (Or.inl hb))⟩
      · exact ⟨ha, Or.inr (Or.inr (Or.inr hb))⟩
    · rintro ⟨ha, ⟨hb, hb'⟩ | hb | hb | hb⟩
      · exact Or.inl ⟨ha ▸ hb, ha, hb'⟩
      · exact Or.inr (Or.inl ⟨ha, hb⟩)
      · exact Or.inr (Or.inr (Or.inl ⟨ha, hb⟩))
      · exact Or.inr (Or.inr (Or.inr ⟨ha, hb⟩))

theorem allVoidPairs_cases (hsized : field.Sized) {a b : ℕ}
    (hmem : (a, b) ∈ field.allVoidPairs level) : a ∈ field.empties level ∧
      ((field.Border a ∧ b = field.size) ∨ b ∈ field.empties level ∧ field.FaceAdjacent a b) := by
  obtain ⟨⟨x, y, z⟩, hcell, hmem⟩ := List.mem_flatMap.mp hmem
  have hbox := mem_cells.mp hcell
  obtain ⟨hfilled, rfl, hb⟩ := (mem_voidPairs hsized hbox).mp hmem
  have hface : b ∈ field.neighbors (field.idx x y z) → field.FaceAdjacent (field.idx x y z) b :=
    (mem_neighbors_iff (idx_lt hbox)).mp
  rw [mem_neighbors_idx hbox] at hface
  refine ⟨(mem_empties_idx hbox).mpr hfilled, ?_⟩
  obtain hb | ⟨x', rfl, hfilled', rfl⟩ | ⟨y', rfl, hfilled', rfl⟩ | ⟨z', rfl, hfilled', rfl⟩ := hb
  · exact Or.inl hb
  · exact Or.inr ⟨(mem_empties_idx ⟨Nat.lt_of_succ_lt hbox.x_lt, hbox.y_lt, hbox.z_lt⟩).mpr hfilled',
      hface (Or.inl ⟨x', rfl, rfl⟩)⟩
  · exact Or.inr ⟨(mem_empties_idx ⟨hbox.x_lt, Nat.lt_of_succ_lt hbox.y_lt, hbox.z_lt⟩).mpr hfilled',
      hface (Or.inr (Or.inr (Or.inl ⟨y', rfl, rfl⟩)))⟩
  · exact Or.inr ⟨(mem_empties_idx ⟨hbox.x_lt, hbox.y_lt, Nat.lt_of_succ_lt hbox.z_lt⟩).mpr hfilled',
      hface (Or.inr (Or.inr (Or.inr (Or.inr (Or.inl ⟨z', rfl, rfl⟩)))))⟩

theorem empties_filled {a : ℕ} (ha : a ∈ field.empties level) :
    field.filled level (field.coords a).1 (field.coords a).2.1 (field.coords a).2.2 = false :=
  (filled_coords a).trans ha.2

theorem allVoidPairs_border (hsized : field.Sized) {a : ℕ} (ha : a ∈ field.empties level)
    (hborder : field.Border a) : (a, field.size) ∈ field.allVoidPairs level := by
  have hbox := inBox_coords ha.1
  apply List.mem_flatMap.mpr
  refine ⟨field.coords a, mem_cells.mpr hbox, (mem_voidPairs hsized hbox).mpr ?_⟩
  exact ⟨empties_filled ha, (idx_coords a).symm, Or.inl ⟨hborder, rfl⟩⟩

/-- Two empty voxels that share a face are united from the later one. -/
theorem allVoidPairs_face (hsized : field.Sized) {a b : ℕ} (ha : a ∈ field.empties level)
    (hb : b ∈ field.empties level) (hface : field.FaceAdjacent a b) :
    (a, b) ∈ field.allVoidPairs level ∨ (b, a) ∈ field.allVoidPairs level := by
  have hboxa := inBox_coords ha.1
  have hboxb := inBox_coords hb.1
  have hfa := empties_filled ha
  have hfb := empties_filled hb
  have hat : ∀ {pair : ℕ × ℕ} {x y z : ℕ}, field.InBox x y z →
      pair ∈ field.voidPairs level field.size (x, y, z) →
      pair ∈ field.allVoidPairs level := fun hbox hmem =>
    List.mem_flatMap.mpr ⟨_, mem_cells.mpr hbox, hmem⟩
  have hia := @idx_coords V field a
  have hib := @idx_coords V field b
  have hapart := hface.apart
  generalize field.coords a = c at *
  generalize field.coords b = d at *
  obtain ⟨x, y, z⟩ := c
  obtain ⟨x', y', z'⟩ := d
  dsimp only at *
  obtain ⟨hx, rfl, rfl⟩ | ⟨rfl, hy, rfl⟩ | ⟨rfl, rfl, hz⟩ := taxicab_eq_one hapart
  · obtain rfl | rfl := dist_eq_one hx
    · exact Or.inl (hat hboxa ((mem_voidPairs hsized hboxa).mpr
        ⟨hfa, hia.symm, Or.inr (Or.inl ⟨x', rfl, hfb, hib.symm⟩)⟩))
    · exact Or.inr (hat hboxb ((mem_voidPairs hsized hboxb).mpr
        ⟨hfb, hib.symm, Or.inr (Or.inl ⟨x, rfl, hfa, hia.symm⟩)⟩))
  · obtain rfl | rfl := dist_eq_one hy
    · exact Or.inl (hat hboxa ((mem_voidPairs hsized hboxa).mpr
        ⟨hfa, hia.symm, Or.inr (Or.inr (Or.inl ⟨y', rfl, hfb, hib.symm⟩))⟩))
    · exact Or.inr (hat hboxb ((mem_voidPairs hsized hboxb).mpr
        ⟨hfb, hib.symm, Or.inr (Or.inr (Or.inl ⟨y, rfl, hfa, hia.symm⟩))⟩))
  · obtain rfl | rfl := dist_eq_one hz
    · exact Or.inl (hat hboxa ((mem_voidPairs hsized hboxa).mpr
        ⟨hfa, hia.symm, Or.inr (Or.inr (Or.inr ⟨z', rfl, hfb, hib.symm⟩))⟩))
    · exact Or.inr (hat hboxb ((mem_voidPairs hsized hboxb).mpr
        ⟨hfb, hib.symm, Or.inr (Or.inr (Or.inr ⟨z, rfl, hfa, hia.symm⟩))⟩))

/-- What the united pairs generate. -/
def VoidJoined (field : VoxelField V) (level : Level V) : ℕ → ℕ → Prop :=
  Relation.EqvGen fun a b => (a, b) ∈ field.allVoidPairs level

theorem voidJoined_of_joined (hsized : field.Sized) {a b : ℕ}
    (h : Library.Joined field.FaceAdjacent (field.empties level) a b) :
    field.VoidJoined level a b := by
  induction h with
  | rel a b h =>
    obtain hab | hba := allVoidPairs_face hsized h.1 h.2.1 h.2.2
    · exact Relation.EqvGen.rel a b hab
    · exact (Relation.EqvGen.rel b a hba).symm
  | refl a => exact Relation.EqvGen.refl a
  | symm _ _ _ ih => exact ih.symm
  | trans _ _ _ _ _ ih ih' => exact ih.trans _ _ _ ih'

theorem joined_of_voidJoined (hsized : field.Sized) {a b : ℕ} (h : field.VoidJoined level a b) :
    field.VoidJoined level a field.size ∨
      Library.Joined field.FaceAdjacent (field.empties level) a b := by
  induction h with
  | rel a b h =>
    obtain ⟨ha, ⟨-, rfl⟩ | ⟨hb, hface⟩⟩ := allVoidPairs_cases hsized h
    · exact Or.inl (Relation.EqvGen.rel _ _ h)
    · exact Or.inr (Library.Joined.step ha hb hface)
  | refl a => exact Or.inr (Library.Joined.refl a)
  | symm a b h ih =>
    obtain hout | hjoined := ih
    · exact Or.inl (Relation.EqvGen.trans _ _ _ h.symm hout)
    · exact Or.inr hjoined.symm
  | trans a b c h h' ih ih' =>
    obtain hout | hjoined := ih
    · exact Or.inl hout
    · obtain hout | hjoined' := ih'
      · exact Or.inl (Relation.EqvGen.trans _ _ _ h hout)
      · exact Or.inr (hjoined.trans hjoined')

/-- An empty voxel is united with the outside exactly when it is joined to the border. -/
theorem voidJoined_outside (hsized : field.Sized) {a : ℕ} (ha : a ∈ field.empties level) :
    field.VoidJoined level a field.size ↔ ∃ b, field.Border b ∧
      Library.Joined field.FaceAdjacent (field.empties level) a b := by
  constructor
  · intro h
    have hreach : ∀ a b, (a, b) ∈ field.allVoidPairs level →
        (a = field.size ∨ ∃ c, field.Border c ∧
          Library.Joined field.FaceAdjacent (field.empties level) a c) =
        (b = field.size ∨ ∃ c, field.Border c ∧
          Library.Joined field.FaceAdjacent (field.empties level) b c) := by
      intro a b hab
      obtain ⟨ha, ⟨hborder, rfl⟩ | ⟨hb, hface⟩⟩ := allVoidPairs_cases hsized hab
      · exact propext (iff_of_true (Or.inr ⟨a, hborder, Library.Joined.refl a⟩) (Or.inl rfl))
      · have hjoined := Library.Joined.step ha hb hface
        rw [eq_iff_iff, or_iff_right (Nat.ne_of_lt ha.1), or_iff_right (Nat.ne_of_lt hb.1)]
        constructor
        · rintro ⟨c, hc, hac⟩
          exact ⟨c, hc, hjoined.symm.trans hac⟩
        · rintro ⟨c, hc, hbc⟩
          exact ⟨c, hc, hjoined.trans hbc⟩
    have hend := UnionFind.agree_of_eqvGen hreach h
    obtain heq | hborder := hend.mpr (Or.inl rfl)
    · exact absurd heq (Nat.ne_of_lt ha.1)
    · exact hborder
  · rintro ⟨b, hborder, hjoined⟩
    have hb := (Library.Joined.mem_iff hjoined).mp ha
    exact (voidJoined_of_joined hsized hjoined).trans _ _ _
      (Relation.EqvGen.rel _ _ (allVoidPairs_border hsized hb hborder))

theorem foldl_countVoid (hsized : field.Sized) (outRoot : ℕ) {cells : List (ℕ × ℕ × ℕ)}
    (hcells : ∀ cell ∈ cells, cell ∈ field.cells) (uf : UnionFind) (count : ℕ) :
    (cells.foldl (field.countVoid level outRoot) (uf, count)).2 =
      count + (cells.filter fun cell => !field.filled level cell.1 cell.2.1 cell.2.2 &&
        decide (uf.root (field.index cell) = field.index cell ∧
          field.index cell ≠ outRoot)).length := by
  induction cells generalizing uf count with
  | nil => rfl
  | cons cell cells ih =>
    have hcell := idx_lt (mem_cells.mp (hcells cell List.mem_cons_self))
    have hrest : ∀ c ∈ cells, c ∈ field.cells := fun c hc => hcells c (List.mem_cons_of_mem _ hc)
    rw [List.foldl_cons, countVoid, hsized.asU32 (Nat.le_of_lt hcell)]
    dsimp only
    by_cases hfilled : field.filled level cell.1 cell.2.1 cell.2.2 = true
    · rw [if_pos hfilled, ih hrest, List.filter_cons_of_neg (by simp [hfilled])]
    · rw [if_neg hfilled, ih hrest, UnionFind.find_snd]
      simp only [UnionFind.find_root]
      by_cases hroot : uf.root (field.idx cell.1 cell.2.1 cell.2.2) =
          field.idx cell.1 cell.2.1 cell.2.2 ∧ field.idx cell.1 cell.2.1 cell.2.2 ≠ outRoot
      · rw [List.filter_cons_of_pos (by simp [hfilled, index, hroot.1, hroot.2]), if_pos hroot,
          List.length_cons]
        omega
      · rw [List.filter_cons_of_neg (by simp [index, hroot]), if_neg hroot]

theorem count_void (hsized : field.Sized) (uf : UnionFind)
    (huf : ∀ z, uf.root z = (UnionFind.new.unionAll (field.allVoidPairs level)).root z) :
    (field.cells.foldl (field.countVoid level (uf.root field.size)) (uf, 0)).2 =
      (field.cavities level).ncard := by
  have htracks : ∀ a b, uf.root a = uf.root b ↔ field.VoidJoined level a b := by
    intro a b
    rw [huf, huf]
    exact UnionFind.tracks_unionAll (field.allVoidPairs level) a b
  have hinner : ∀ i ∈ field.empties level, uf.root i ≠ uf.root field.size ↔
      ∀ b ∈ component field.FaceAdjacent (field.empties level) i, ¬ field.Border b := by
    intro i hi
    rw [ne_eq, htracks, voidJoined_outside hsized hi, not_exists]
    exact forall_congr' fun b => ⟨fun h hjoined hborder => h ⟨hborder, hjoined⟩,
      fun h hb => h hb.2 hb.1⟩
  have himage : field.cavities level = component field.FaceAdjacent (field.empties level) ''
      {i | i ∈ field.empties level ∧ uf.root i = i ∧ i ≠ uf.root field.size} := by
    apply Set.Subset.antisymm
    · rintro _ ⟨⟨i, hi, rfl⟩, hborder⟩
      have hout := (hinner i hi).mpr hborder
      have hself := (htracks i (uf.root i)).mp (UnionFind.root_root uf i).symm
      have hjoined := (joined_of_voidJoined hsized hself).resolve_left fun h =>
        hout ((htracks i field.size).mpr h)
      refine ⟨uf.root i, ⟨(Library.Joined.mem_iff hjoined).mp hi, UnionFind.root_root uf i, hout⟩,
        ?_⟩
      exact (component_eq_iff.mpr hjoined).symm
    · rintro _ ⟨i, ⟨hi, hroot, hout⟩, rfl⟩
      rw [← hroot] at hout
      exact ⟨⟨i, hi, rfl⟩, (hinner i hi).mp hout⟩
  rw [foldl_countVoid hsized _ fun _ h => h, Nat.zero_add, himage, Set.InjOn.ncard_image]
  · refine (ncard_cells ?_).symm
    intro i
    rw [Bool.and_eq_true, decide_eq_true_eq, index_coords, filled_coords, Bool.not_eq_true']
    exact and_assoc
  · intro i hi j hj heq
    have hroot := (htracks i j).mpr (voidJoined_of_joined hsized (component_eq_iff.mp heq))
    rwa [hi.2.1, hj.2.1] at hroot

/-- Without a solid every voxel is joined to the border, along its row. -/
theorem exists_border (hempty : ∀ i < field.size, i ∈ field.empties level) {x y z : ℕ}
    (h : field.InBox x y z) : ∃ b, field.Border b ∧
      Library.Joined field.FaceAdjacent (field.empties level) (field.idx x y z) b := by
  induction x with
  | zero =>
    refine ⟨field.idx 0 y z, ?_, Library.Joined.refl _⟩
    left
    rw [coords_idx h]
  | succ x ih =>
    have hbox : field.InBox x y z := ⟨Nat.lt_of_succ_lt h.x_lt, h.y_lt, h.z_lt⟩
    obtain ⟨b, hborder, hjoined⟩ := ih hbox
    refine ⟨b, hborder, Library.Joined.trans ?_ hjoined⟩
    apply Library.Joined.step (hempty _ (idx_lt h)) (hempty _ (idx_lt hbox))
    apply (mem_neighbors_iff (idx_lt h)).mp
    exact (mem_neighbors_idx h).mpr (Or.inl ⟨x, rfl, rfl⟩)

/-- Without a solid there are no components, no cavities and no cells. -/
theorem hollow (hsolid : field.solid level = ∅) :
    (components field.Touching (field.solid level)).ncard = 0 ∧
      (field.cavities level).ncard = 0 ∧ eulerCharacteristic (field.complex level) = 0 := by
  have hempty : ∀ i < field.size, i ∈ field.empties level := by
    intro i hi
    refine ⟨hi, Bool.eq_false_of_not_eq_true ?_⟩
    intro hfilled
    have hmem : i ∈ field.solid level := ⟨hi, hfilled⟩
    rw [hsolid] at hmem
    exact hmem
  have hcavities : field.cavities level = ∅ := by
    apply Set.eq_empty_of_forall_notMem
    rintro _ ⟨⟨i, hi, rfl⟩, hborder⟩
    obtain ⟨b, hb, hjoined⟩ := exists_border hempty (inBox_coords hi.1)
    rw [idx_coords] at hjoined
    exact hborder b hjoined hb
  have hcomplex : field.complex level = ∅ := by
    apply Set.eq_empty_of_forall_notMem
    rintro cell ⟨i, hi, -⟩
    rw [hsolid] at hi
    exact hi
  rw [hcavities, hcomplex, hsolid]
  simp [components, eulerCharacteristic, cellsOf]

end VoxelField

/-- The result is the components of the solid, what closes the Euler characteristic of its
complex, and the cavities. -/
theorem betti_counts {field : VoxelField V} (h : field.Sized) (level : Level V) :
    field.betti level =
      ((components field.Touching (field.solid level)).ncard,
        asU32 (max (((components field.Touching (field.solid level)).ncard : ℤ) +
          (field.cavities level).ncard - eulerCharacteristic (field.complex level)) 0).toNat,
        (field.cavities level).ncard) := by
  have hsolid : field.cells.foldl (field.uniteSolid level) (UnionFind.new, 0) =
      (UnionFind.new.unionAll (field.allSolidPairs level),
        (field.cells.filter fun cell => field.filled level cell.1 cell.2.1 cell.2.2).length) := by
    rw [VoxelField.foldl_uniteSolid, Nat.zero_add]
    rfl
  have hcard : (field.solid level).ncard =
      (field.cells.filter fun cell => field.filled level cell.1 cell.2.1 cell.2.2).length := by
    apply VoxelField.ncard_cells
    intro i
    rw [VoxelField.filled_coords]
    rfl
  unfold VoxelField.betti
  rw [hsolid]
  dsimp only
  split
  case isTrue hzero =>
    have hfinite : (field.solid level).Finite :=
      (Set.finite_lt_nat field.size).subset fun i hi => hi.1
    rw [hzero, Set.ncard_eq_zero hfinite] at hcard
    obtain ⟨hb0, hb2, heuler⟩ := VoxelField.hollow hcard
    rw [hb0, hb2, heuler]
    rfl
  case isFalse =>
    have hout : asU32 field.values.length = field.size := by
      rw [h.filled]
      exact h.asU32 (Nat.le_refl _)
    have hvoid := VoxelField.count_void h
      ((UnionFind.new.unionAll (field.allVoidPairs level)).find field.size).1
      (fun z => UnionFind.find_root _ _ z)
    rw [UnionFind.find_root] at hvoid
    rw [VoxelField.count_solid h, hout, VoxelField.foldl_uniteVoid, UnionFind.find_snd,
      VoxelField.eulerCharacteristic_complex h]
    unfold VoxelField.allVoidPairs at hvoid
    rw [hvoid]

/-- A full box around an empty voxel, and a slab with a hole. -/
def shell : VoxelField (WithTop ℕ) := ⟨3, 3, 3, List.replicate 13 0 ++ 1 :: List.replicate 13 0⟩

def slab : VoxelField (WithTop ℕ) := ⟨3, 3, 1, [0, 0, 0, 0, 1, 0, 0, 0, 0]⟩

/-- The box has one cavity and no tunnel, the slab one tunnel and no cavity. -/
theorem betti_counts_shell :
    shell.betti (some 1) = (1, 0, 1) ∧ slab.betti (some 1) = (1, 1, 0) ∧
    shell.betti (some 1) =
      ((components shell.Touching (shell.solid (some 1))).ncard,
        asU32 (max (((components shell.Touching (shell.solid (some 1))).ncard : ℤ) +
          (shell.cavities (some 1)).ncard - eulerCharacteristic (shell.complex (some 1)))
            0).toNat,
        (shell.cavities (some 1)).ncard) ∧
    slab.betti (some 1) =
      ((components slab.Touching (slab.solid (some 1))).ncard,
        asU32 (max (((components slab.Touching (slab.solid (some 1))).ncard : ℤ) +
          (slab.cavities (some 1)).ncard - eulerCharacteristic (slab.complex (some 1)))
            0).toNat,
        (slab.cavities (some 1)).ncard) :=
  ⟨by decide +kernel, by decide +kernel,
    betti_counts ⟨by decide, by decide, by decide, by decide, by decide⟩ (some 1),
    betti_counts ⟨by decide, by decide, by decide, by decide, by decide⟩ (some 1)⟩

end FrankenSim.Voxel
