import FrankenSim.Sparse.Ordering
import FrankenSim.Sparse.Partition

/-!
# The analysis

The supernodes form a tree: the panel of a supernode starts in its parent, which comes
later, and lies inside the parent's columns and panel. The analysis accepts exactly the
square matrices with a symmetric pattern, and what it returns is exact for either order.
-/
namespace FrankenSim.Sparse

open Library

variable {V : Type} {G : SimpleGraph ℕ} {n : ℕ} {S : Structure} {found : Supernodes}

def assemblyParent (S : Structure) (found : Supernodes) (id : ℕ) : Option ℕ :=
  (found.snodes[id]?).bind fun node =>
    (S.parent (node.colStart + node.width - 1)).bind found.snodeOf

def attachedNode (S : Structure) (found : Supernodes) (k id : ℕ) (node : SnodeSym) : SnodeSym :=
  { node with
    parent := if id < k then assemblyParent S found id else none
    children := (List.range k).filter fun c => assemblyParent S found c == some id }

def attached (S : Structure) (found : Supernodes) (k : ℕ) : List SnodeSym :=
  found.snodes.mapIdx (attachedNode S found k)

theorem getElem?_attached (k id : ℕ) : (attached S found k)[id]? =
    (found.snodes[id]?).map (attachedNode S found k id) := by
  rw [attached, List.getElem?_mapIdx]

theorem attached_zero (h : Tiled G S n found) : attached S found 0 = found.snodes := by
  apply List.ext_getElem?
  intro id
  rw [getElem?_attached]
  cases hnode : found.snodes[id]? with
  | none => rfl
  | some node =>
    obtain ⟨hparent, hchildren⟩ := h.unplaced node (List.mem_of_getElem? hnode)
    obtain ⟨colStart, width, panel, parent, children⟩ := node
    cases hparent
    cases hchildren
    rfl

theorem Exact.attach_eq (h : Exact G n S) (hfound : Tiled G S n found) {k : ℕ}
    (hk : k < found.snodes.length) :
    attach S.parent found.snodeOf (attached S found k) k = some (attached S found (k + 1)) := by
  have hnode := List.getElem?_eq_getElem hk
  generalize found.snodes[k] = node at hnode
  have hlast : assemblyParent S found k =
      (S.parent (node.colStart + node.width - 1)).bind found.snodeOf := by
    rw [assemblyParent, hnode]
    rfl
  rw [attach, getElem?_attached, hnode]
  simp only [attachedNode, Option.map_some, Option.bind_eq_bind, Option.bind_some]
  cases hp : S.parent (node.colStart + node.width - 1) with
  | none =>
    rw [hp] at hlast
    refine congrArg some ?_
    apply List.ext_getElem?
    intro id
    rw [getElem?_attached, getElem?_attached]
    congr 1
    funext node'
    simp only [attachedNode, SnodeSym.mk.injEq, true_and, List.range_succ, List.filter_append]
    constructor
    · by_cases hid : id = k
      · subst hid
        rw [hlast, if_neg (Nat.lt_irrefl id), if_pos (Nat.lt_succ_self id)]
        rfl
      · congr 1
        rw [eq_iff_iff]
        omega
    · simp [hlast]
  | some p =>
    obtain ⟨ps, hps⟩ := hfound.exists_snodeOf (h.fill_lt ((h.parent_iff _ p).mp hp).1)
    have hlast' : assemblyParent S found k = some ps := by
      rw [hlast, hp]
      exact hps
    obtain ⟨top, htop, -⟩ := (hfound.snodeOf_iff p ps).mp hps
    have hpslt := (List.getElem?_eq_some_iff.mp htop).1
    have hlength : (attached S found k).length = found.snodes.length := List.length_mapIdx
    dsimp only
    rw [hps, Option.bind_some, modifyAt_of_lt (hlength ▸ hk), Option.bind_some, modifyAt_of_lt]
    · refine congrArg some ?_
      apply List.ext_getElem?
      intro id
      rw [List.getElem?_modify, List.getElem?_modify, getElem?_attached, getElem?_attached]
      cases found.snodes[id]? with
      | none => simp
      | some node' =>
        simp only [attachedNode, Option.map_some, List.range_succ,
          List.filter_append]
        by_cases hpsid : ps = id <;> by_cases hkid : k = id
        · subst hkid
          simp [hpsid, hlast']
        · have hid : id < k + 1 ↔ id < k := by omega
          simp [hpsid, hkid, hlast', hid]
        · subst hkid
          simp [hpsid, hlast']
        · have hid : id < k + 1 ↔ id < k := by omega
          simp [hpsid, hkid, hlast', hid]
    · rw [List.length_modify, hlength]
      exact hpslt

theorem Exact.foldlM_attach (h : Exact G n S) (hfound : Tiled G S n found) {k : ℕ}
    (hk : k ≤ found.snodes.length) :
    (List.range k).foldlM (attach S.parent found.snodeOf) found.snodes =
      some (attached S found k) := by
  induction k with
  | zero => rw [attached_zero hfound]; rfl
  | succ k ih =>
    rw [List.range_succ, List.foldlM_append, ih (Nat.le_of_succ_le hk)]
    change (attach S.parent found.snodeOf (attached S found k) k >>= pure) = _
    rw [bind_pure]
    exact h.attach_eq hfound hk

/-- The supernodes of the first `n` columns of `G` with their tree. -/
structure Assembled (G : SimpleGraph ℕ) (n : ℕ) (snodes : List SnodeSym) : Prop where
  width_pos : ∀ node ∈ snodes, 0 < node.width
  starts : ∀ (id : ℕ) (node : SnodeSym), snodes[id]? = some node →
    node.colStart = ((snodes.take id).map SnodeSym.width).sum
  total : (snodes.map SnodeSym.width).sum = n
  fill_iff : ∀ node ∈ snodes, ∀ c, node.Holds c → ∀ i,
    (Fill G c i ↔ c < i ∧ node.Holds i ∨ i ∈ node.panel)
  panel_sorted : ∀ node ∈ snodes, node.panel.Pairwise (· < ·)
  maximal : ∀ node ∈ snodes, ¬ SharesNext G (node.colStart + node.width - 1)
  parent_iff : ∀ node ∈ snodes, ∀ ps, node.parent = some ps ↔
    ∃ (p : ℕ) (top : SnodeSym), node.panel.head? = some p ∧ snodes[ps]? = some top ∧ top.Holds p
  parent_later : ∀ (id : ℕ) (node : SnodeSym), snodes[id]? = some node →
    ∀ ps, node.parent = some ps → id < ps
  parent_holds : ∀ node ∈ snodes, ∀ (ps : ℕ) (top : SnodeSym), node.parent = some ps →
    snodes[ps]? = some top → ∀ i ∈ node.panel, top.Holds i ∨ i ∈ top.panel
  root_iff : ∀ node ∈ snodes, node.parent = none ↔ node.panel = []
  children_sorted : ∀ node ∈ snodes, node.children.Pairwise (· < ·)
  mem_children : ∀ (id : ℕ) (node : SnodeSym), snodes[id]? = some node →
    ∀ c, c ∈ node.children ↔ ∃ child : SnodeSym, snodes[c]? = some child ∧ child.parent = some id

theorem Exact.fill_run (h : Exact G n S) {node : SnodeSym} (hrun : IsRun G S node) {c : ℕ}
    (hc : node.Holds c) (i : ℕ) : Fill G c i ↔ c < i ∧ node.Holds i ∨ i ∈ node.panel := by
  obtain ⟨hstart, hend⟩ := hc
  have hpos := hrun.width_pos
  have hcs := h.cs_run (j := c) (node.colStart + node.width - 1 - c) (by
    intro d hcd hd
    exact hrun.shares d (Nat.le_trans hstart hcd) (by omega))
  have hlast : c + (node.colStart + node.width - 1 - c) = node.colStart + node.width - 1 := by omega
  rw [← h.mem_iff, hcs, List.mem_append, hlast, ← hrun.panel_eq, List.mem_range'_1,
    SnodeSym.Holds]
  have hrange : (c + 1 ≤ i ∧ i < c + 1 + (node.colStart + node.width - 1 - c)) ↔
      c < i ∧ node.colStart ≤ i ∧ i < node.colStart + node.width := by omega
  rw [hrange]

theorem Exact.panel_head (h : Exact G n S) {node : SnodeSym} (hrun : IsRun G S node) (p : ℕ) :
    node.panel.head? = some p ↔ S.parent (node.colStart + node.width - 1) = some p := by
  have hsorted := h.sorted (node.colStart + node.width - 1)
  have hmem := h.mem_iff (node.colStart + node.width - 1)
  rw [h.parent_iff, hrun.panel_eq]
  cases hcs : S.cs (node.colStart + node.width - 1) with
  | nil =>
    rw [hcs] at hmem
    constructor
    · intro hp
      cases hp
    · intro hp
      exact absurd ((hmem p).mpr hp.1) List.not_mem_nil
  | cons q rest =>
    rw [hcs] at hmem hsorted
    have hleast := (List.pairwise_cons.mp hsorted).1
    have hq : IsParent G (node.colStart + node.width - 1) q := by
      refine ⟨(hmem q).mp List.mem_cons_self, ?_⟩
      intro i hi
      cases List.mem_cons.mp ((hmem i).mpr hi) with
      | inl heq => exact Nat.le_of_eq heq.symm
      | inr hmem' => exact Nat.le_of_lt (hleast i hmem')
    rw [List.head?_cons, Option.some.injEq]
    constructor
    · exact fun heq => heq ▸ hq
    · exact fun hp => isParent_rightUnique hq hp

theorem Tiled.getElem?_attached (hfound : Tiled G S n found) {id : ℕ} {node : SnodeSym}
    (hnode : (attached S found found.snodes.length)[id]? = some node) :
    IsRun G S node ∧ node.colStart = ((found.snodes.take id).map SnodeSym.width).sum ∧
      node.parent = (S.parent (node.colStart + node.width - 1)).bind found.snodeOf ∧
      node.children = (List.range found.snodes.length).filter fun c =>
        assemblyParent S found c == some id := by
  rw [Sparse.getElem?_attached, Option.map_eq_some_iff] at hnode
  obtain ⟨old, hold, rfl⟩ := hnode
  have hrun := hfound.runs old (List.mem_of_getElem? hold)
  have hid := (List.getElem?_eq_some_iff.mp hold).1
  refine ⟨⟨hrun.width_pos, hrun.shares, hrun.ends, hrun.panel_eq⟩, hfound.starts id old hold, ?_, rfl⟩
  rw [attachedNode]
  dsimp only
  rw [if_pos hid, assemblyParent, hold, Option.bind_some]

theorem Tiled.snodeOf_attached (hfound : Tiled G S n found) (c id : ℕ) :
    found.snodeOf c = some id ↔ ∃ node : SnodeSym,
      (attached S found found.snodes.length)[id]? = some node ∧ node.Holds c := by
  rw [hfound.snodeOf_iff]
  constructor
  · intro h
    obtain ⟨node, hnode, hc⟩ := h
    refine ⟨attachedNode S found found.snodes.length id node, ?_, hc⟩
    rw [Sparse.getElem?_attached, hnode, Option.map_some]
  · intro h
    obtain ⟨node, hnode, hc⟩ := h
    rw [Sparse.getElem?_attached, Option.map_eq_some_iff] at hnode
    obtain ⟨old, hold, rfl⟩ := hnode
    exact ⟨old, hold, hc⟩

theorem map_width_attached (k : ℕ) :
    (attached S found k).map SnodeSym.width = found.snodes.map SnodeSym.width := by
  apply List.ext_getElem?
  intro id
  rw [List.getElem?_map, List.getElem?_map, getElem?_attached, Option.map_map]
  rfl

theorem sum_take_le {a b : ℕ} (h : a ≤ b) (snodes : List SnodeSym) :
    ((snodes.take a).map SnodeSym.width).sum ≤ ((snodes.take b).map SnodeSym.width).sum := by
  have hsplit := List.take_append_drop a (snodes.take b)
  rw [List.take_take, Nat.min_eq_left h] at hsplit
  rw [← hsplit, List.map_append, List.sum_append]
  exact Nat.le_add_right _ _

theorem Tiled.sum_take_succ (hfound : Tiled G S n found) {id : ℕ} {node : SnodeSym}
    (hnode : (attached S found found.snodes.length)[id]? = some node) :
    ((found.snodes.take (id + 1)).map SnodeSym.width).sum = node.colStart + node.width := by
  rw [(hfound.getElem?_attached hnode).2.1]
  rw [Sparse.getElem?_attached, Option.map_eq_some_iff] at hnode
  obtain ⟨old, hold, rfl⟩ := hnode
  rw [List.take_add_one, hold]
  simp [attachedNode]

/-- An attached supernode is a run, and its parent holds the parent of its last column. -/
theorem Exact.parent_attached (h : Exact G n S) (hfound : Tiled G S n found) {node : SnodeSym}
    (hnode : node ∈ attached S found found.snodes.length) :
    IsRun G S node ∧ ∀ ps, node.parent = some ps ↔
      ∃ p, IsParent G (node.colStart + node.width - 1) p ∧ found.snodeOf p = some ps := by
  obtain ⟨id, hid⟩ := List.mem_iff_getElem?.mp hnode
  obtain ⟨hrun, -, hparent, -⟩ := hfound.getElem?_attached hid
  refine ⟨hrun, fun ps => ?_⟩
  rw [hparent, Option.bind_eq_some_iff]
  simp only [h.parent_iff]

/-- A parent has a later column, so it is a later supernode. -/
theorem Exact.parent_later (h : Exact G n S) (hfound : Tiled G S n found) {id ps : ℕ}
    {node : SnodeSym} (hnode : (attached S found found.snodes.length)[id]? = some node)
    (hps : node.parent = some ps) : id < ps := by
  obtain ⟨hrun, hparent⟩ := h.parent_attached hfound (List.mem_of_getElem? hnode)
  obtain ⟨p, hp, hps⟩ := (hparent ps).mp hps
  obtain ⟨top, htop, hholds⟩ := (hfound.snodeOf_attached p ps).mp hps
  have hstart := (hfound.getElem?_attached hnode).2.1
  have hstart' := (hfound.getElem?_attached htop).2.1
  have hpos := hrun.width_pos
  have hup := hp.lt
  by_contra hle
  have hafter : p < node.colStart + node.width := by
    obtain hlt | rfl := Nat.lt_or_eq_of_le (Nat.le_of_not_lt hle)
    · have hsum := @Tiled.sum_take_succ _ _ _ _ hfound ps _ htop
      have hmono : ((found.snodes.take (ps + 1)).map SnodeSym.width).sum ≤
          ((found.snodes.take id).map SnodeSym.width).sum := sum_take_le hlt _
      have hend := hholds.2
      omega
    · rw [hnode] at htop
      cases htop
      exact hholds.2
  omega

/-- A parent holds the panel, in its columns or in its own panel. -/
theorem Exact.parent_holds (h : Exact G n S) (hfound : Tiled G S n found) {ps : ℕ}
    {node top : SnodeSym} (hnode : node ∈ attached S found found.snodes.length)
    (hps : node.parent = some ps)
    (htop : (attached S found found.snodes.length)[ps]? = some top) {i : ℕ}
    (hi : i ∈ node.panel) : top.Holds i ∨ i ∈ top.panel := by
  obtain ⟨hrun, hparent⟩ := h.parent_attached hfound hnode
  obtain ⟨p, hp, hps⟩ := (hparent ps).mp hps
  obtain ⟨top', htop', hholds⟩ := (hfound.snodeOf_attached p ps).mp hps
  rw [htop] at htop'
  cases htop'
  have hfill : Fill G (node.colStart + node.width - 1) i := by
    rw [hrun.panel_eq] at hi
    exact (h.mem_iff _ i).mp hi
  obtain heq | hlt := Nat.eq_or_lt_of_le (hp.2 i hfill)
  · exact Or.inl (heq ▸ hholds)
  · have hnext := hp.1.trans hfill hlt
    have hrun' := (h.parent_attached hfound (List.mem_of_getElem? htop)).1
    cases (h.fill_run hrun' hholds i).mp hnext with
    | inl hcol => exact Or.inl hcol.2
    | inr hpanel => exact Or.inr hpanel

theorem Exact.root_iff (h : Exact G n S) (hfound : Tiled G S n found) {node : SnodeSym}
    (hnode : node ∈ attached S found found.snodes.length) :
    node.parent = none ↔ node.panel = [] := by
  obtain ⟨hrun, hparent⟩ := h.parent_attached hfound hnode
  rw [← List.head?_eq_none_iff, Option.eq_none_iff_forall_ne_some,
    Option.eq_none_iff_forall_ne_some]
  simp only [ne_eq, hparent, h.panel_head hrun, h.parent_iff]
  constructor
  · intro hall p hp
    obtain ⟨ps, hps⟩ := hfound.exists_snodeOf (h.fill_lt hp.1)
    exact hall ps ⟨p, hp, hps⟩
  · rintro hall ps ⟨p, hp, -⟩
    exact hall p hp

theorem Tiled.mem_children (hfound : Tiled G S n found) {id : ℕ} {node : SnodeSym}
    (hnode : (attached S found found.snodes.length)[id]? = some node) (c : ℕ) :
    c ∈ node.children ↔ ∃ child : SnodeSym,
      (attached S found found.snodes.length)[c]? = some child ∧ child.parent = some id := by
  rw [(hfound.getElem?_attached hnode).2.2.2, List.mem_filter, List.mem_range, beq_iff_eq]
  constructor
  · intro hc
    refine ⟨attachedNode S found found.snodes.length c found.snodes[c], ?_, ?_⟩
    · rw [Sparse.getElem?_attached, List.getElem?_eq_getElem hc.1, Option.map_some]
    · exact (if_pos hc.1).trans hc.2
  · intro hc
    obtain ⟨child, hchild, hparent⟩ := hc
    rw [Sparse.getElem?_attached, Option.map_eq_some_iff] at hchild
    obtain ⟨old, hold, rfl⟩ := hchild
    have hlt := (List.getElem?_eq_some_iff.mp hold).1
    exact ⟨hlt, (if_pos hlt).symm.trans hparent⟩

theorem Exact.assembled (h : Exact G n S) (hfound : Tiled G S n found) :
    Assembled G n (attached S found found.snodes.length) := by
  have hrun : ∀ node ∈ attached S found found.snodes.length, IsRun G S node :=
    fun node hnode => (h.parent_attached hfound hnode).1
  constructor
  case width_pos => exact fun node hnode => (hrun node hnode).width_pos
  case starts =>
    intro id node hnode
    rw [(hfound.getElem?_attached hnode).2.1, List.map_take, List.map_take, map_width_attached]
  case total =>
    rw [map_width_attached]
    exact hfound.total
  case fill_iff => exact fun node hnode c hc i => h.fill_run (hrun node hnode) hc i
  case panel_sorted =>
    intro node hnode
    rw [(hrun node hnode).panel_eq]
    exact h.sorted _
  case maximal => exact fun node hnode => (hrun node hnode).ends
  case parent_iff =>
    intro node hnode ps
    rw [(h.parent_attached hfound hnode).2]
    simp only [h.panel_head (hrun node hnode), h.parent_iff, hfound.snodeOf_attached]
    constructor
    · intro hex
      obtain ⟨p, hp, top, htop⟩ := hex
      exact ⟨p, top, hp, htop⟩
    · intro hex
      obtain ⟨p, top, hp, htop⟩ := hex
      exact ⟨p, hp, top, htop⟩
  case parent_later => exact fun id node hnode ps hps => h.parent_later hfound hnode hps
  case parent_holds =>
    exact fun node hnode ps top hps htop i hi => h.parent_holds hfound hnode hps htop hi
  case root_iff => exact fun node hnode => h.root_iff hfound hnode
  case children_sorted =>
    intro node hnode
    obtain ⟨id, hid⟩ := List.mem_iff_getElem?.mp hnode
    rw [(hfound.getElem?_attached hid).2.2.2]
    exact List.pairwise_lt_range.filter _
  case mem_children => exact fun id node hnode c => hfound.mem_children hnode c

end FrankenSim.Sparse
