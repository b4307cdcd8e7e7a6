import FrankenSim.Library.Slots

/-!
# Counting sort with a moving cursor

Keyed items are put into one array, the items of a key into the block that the counts
reserve for it. A cursor for each key says where its next item goes. What was placed
fills the front of each block, and the cursor stands right behind it.
-/
namespace FrankenSim.Library

variable {α β γ : Type*}

/-- Overwriting a cell of one block in the concatenation of all blocks. -/
theorem overwrite_flatten {blocks : List (List α)} {i k : ℕ} {block : List α}
    (hi : blocks[i]? = some block) (hk : k < block.length) (a : α) :
    modifyAt ((blocks.take i).flatten.length + k) (fun _ => a) blocks.flatten =
      some (blocks.set i (block.set k a)).flatten := by
  obtain ⟨hlt, rfl⟩ := List.getElem?_eq_some_iff.1 hi
  have hset : blocks.set i (blocks[i].set k a) =
      blocks.take i ++ blocks[i].set k a :: blocks.drop (i + 1) := by
    rw [List.set_eq_take_append_cons_drop, if_pos hlt]
  have hflatten : blocks.flatten =
      (blocks.take i).flatten ++ (blocks[i] ++ (blocks.drop (i + 1)).flatten) := by
    conv_lhs => rw [← List.take_append_drop i blocks, List.drop_eq_getElem_cons hlt,
      List.flatten_append, List.flatten_cons]
  have hcell : blocks.flatten[(blocks.take i).flatten.length + k]? = some blocks[i][k] := by
    rw [hflatten, List.getElem?_append_right (Nat.le_add_right _ _), Nat.add_sub_cancel_left,
      List.getElem?_append_left hk, List.getElem?_eq_getElem hk]
  rw [modifyAt_eq_set hcell, hset, List.flatten_append, List.flatten_cons]
  congr 1
  conv_lhs => rw [hflatten]
  rw [List.set_append_right _ _ (Nat.le_add_right _ _), Nat.add_sub_cancel_left,
    List.set_append_left _ _ hk]

/-- The number of items with a key. -/
def countKey (l : List (ℕ × β)) (c : ℕ) : ℕ := (l.filter (·.1 = c)).length

/-- Where the block of a key starts. -/
def blockStart (l : List (ℕ × β)) (c : ℕ) : ℕ := ((List.range c).map (countKey l)).sum

/-- The items with a key, in their order. -/
def keyed (f : β → α) (l : List (ℕ × β)) (c : ℕ) : List α := (l.filter (·.1 = c)).map fun e => f e.2

/-- Every block with the items placed so far, and room for those that are to come. -/
def filling (n : ℕ) (room : α) (f : β → α) (placed later : List (ℕ × β)) : List (List α) :=
  (List.range n).map fun c => keyed f placed c ++ List.replicate (countKey later c) room

/-- The cursors when some of the items are placed. -/
def cursors (n : ℕ) (l placed : List (ℕ × β)) : List ℕ :=
  (List.range n).map fun c => blockStart l c + countKey placed c

variable {n : ℕ} {room : α} {f : β → α} {placed later : List (ℕ × β)}

@[simp] theorem length_keyed (l : List (ℕ × β)) (c : ℕ) : (keyed f l c).length = countKey l c := by
  simp [keyed, countKey]

@[simp] theorem countKey_append (l m : List (ℕ × β)) (c : ℕ) :
    countKey (l ++ m) c = countKey l c + countKey m c := by
  simp [countKey]

theorem countKey_cons (e : ℕ × β) (l : List (ℕ × β)) (c : ℕ) :
    countKey (e :: l) c = countKey l c + if e.1 = c then 1 else 0 := by
  by_cases h : e.1 = c <;> simp [countKey, h]

theorem keyed_concat (e : ℕ × β) (l : List (ℕ × β)) (c : ℕ) :
    keyed f (l ++ [e]) c = keyed f l c ++ if e.1 = c then [f e.2] else [] := by
  by_cases h : e.1 = c <;> simp [keyed, h]

/-- The blocks have room for every item. -/
theorem blockStart_all {l : List (ℕ × β)} (h : ∀ e ∈ l, e.1 < n) : blockStart l n = l.length := by
  have hone : ∀ i m, ((List.range m).map fun c => if i = c then 1 else 0).sum =
      if i < m then 1 else 0 := by
    intro i m
    induction m with
    | zero => rfl
    | succ m ih =>
      rw [List.range_succ, List.map_append, List.sum_append, ih, List.map_singleton,
        List.sum_singleton]
      split_ifs <;> omega
  induction l with
  | nil =>
    have hzero : countKey ([] : List (ℕ × β)) = fun _ => 0 := rfl
    simp [blockStart, hzero]
  | cons e l ih =>
    have hl : ((List.range n).map (countKey l)).sum = l.length :=
      ih fun e he => h e (List.mem_cons_of_mem _ he)
    simp only [blockStart, funext (countKey_cons e l)]
    rw [List.sum_map_add, hl, hone, if_pos (h e List.mem_cons_self), List.length_cons]

theorem length_take_filling {c : ℕ} (hc : c ≤ n) :
    ((filling n room f placed later).take c).flatten.length = blockStart (placed ++ later) c := by
  rw [filling, ← List.map_take, List.take_range, Nat.min_eq_left hc, List.length_flatten,
    List.map_map, blockStart]
  congr 1
  apply List.map_congr_left
  intro i _
  simp

/-- Before the first item there is only room. -/
theorem flatten_filling_nil (l : List (ℕ × β)) :
    (filling n room f [] l).flatten = List.replicate (blockStart l n) room := by
  rw [List.eq_replicate_iff]
  constructor
  · have htake : (filling n room f [] l).take n = filling n room f [] l :=
      List.take_of_length_le (by simp [filling])
    rw [← htake, length_take_filling (Nat.le_refl n), List.nil_append]
  · intro a ha
    obtain ⟨block, hblock, ha⟩ := List.mem_flatten.1 ha
    obtain ⟨c, -, rfl⟩ := List.mem_map.1 hblock
    exact (List.mem_replicate.1 (by simpa [keyed] using ha)).2

/-- After the last item the blocks hold the items of their keys. -/
theorem filling_all (l : List (ℕ × β)) :
    filling n room f l [] = (List.range n).map (keyed f l) := by
  simp [filling, countKey]

/-- The cursor of the next item points at the first room in its block. -/
theorem place_filling {e : ℕ × β} (he : e.1 < n) :
    modifyAt (blockStart (placed ++ e :: later) e.1 + countKey placed e.1) (fun _ => f e.2)
        (filling n room f placed (e :: later)).flatten =
      some (filling n room f (placed ++ [e]) later).flatten := by
  let before := filling n room f placed (e :: later)
  have hstart : (before.take e.1).flatten.length = blockStart (placed ++ e :: later) e.1 :=
    length_take_filling (Nat.le_of_lt he)
  have hblock : before[e.1]? = some (keyed f placed e.1 ++
      room :: List.replicate (countKey later e.1) room) := by
    simp only [before, filling]
    rw [List.getElem?_map, List.getElem?_range he, Option.map_some, countKey_cons, if_pos rfl]
    rfl
  rw [← hstart, overwrite_flatten hblock (by simp)]
  congr 2
  -- only the block of the item changes
  apply List.ext_getElem (by simp [before, filling])
  intro c hc hc'
  have hcn : c < n := by simpa [filling] using hc'
  rw [List.getElem_set]
  by_cases hkey : e.1 = c
  · subst hkey
    rw [if_pos rfl, List.set_append_right _ _ (by simp)]
    simp [filling, keyed_concat]
  · rw [if_neg hkey]
    simp [before, filling, keyed_concat, countKey_cons, hkey]

/-- Placing an item moves its cursor on. -/
theorem cursors_concat {l : List (ℕ × β)} {e : ℕ × β} (he : e.1 < n) :
    modifyAt e.1 (· + 1) (cursors n l placed) = some (cursors n l (placed ++ [e])) := by
  rw [modifyAt_of_lt (by simpa [cursors] using he)]
  congr 1
  apply List.ext_getElem (by simp [cursors])
  intro c hc hc'
  rw [List.getElem_modify]
  by_cases hkey : e.1 = c
  · simp [cursors, countKey, hkey, Nat.add_assoc]
  · simp [cursors, countKey, hkey]

theorem cursors_get {l : List (ℕ × β)} {c : ℕ} (hc : c < n) :
    (cursors n l placed)[c]? = some (blockStart l c + countKey placed c) := by
  rw [cursors, List.getElem?_map, List.getElem?_range hc, Option.map_some]

theorem flatten_keyed (f : β → α) (l : List (ℕ × β)) :
    ((List.range n).map (keyed f l)).flatten = ((List.range n).map (keyed id l)).flatten.map f := by
  rw [List.map_flatten, List.map_map]
  congr 2
  funext c
  simp [keyed]

/-- The running sums of the counts are the cursors before the first item. -/
theorem runningSums_counts (l : List (ℕ × β)) :
    runningSums 0 (0 :: (List.range n).map (countKey l)) = cursors (n + 1) l [] := by
  apply List.ext_getElem (by simp [cursors])
  intro c hc hc'
  have hcn : c ≤ n := by
    simp only [cursors, List.length_map, List.length_range] at hc'
    omega
  simp [getElem_runningSums, cursors, blockStart, countKey, ← List.map_take, List.take_range,
    Nat.min_eq_left hcn]

/-- The cursors before the first item are the offsets of the blocks. -/
theorem offsets_keyed (f : β → α) (l : List (ℕ × β)) :
    offsets ((List.range n).map (keyed f l)) = cursors (n + 1) l [] := by
  rw [← runningSums_counts, offsets, List.map_map]
  have hcounts : List.length ∘ keyed f l = countKey l := funext fun c => length_keyed l c
  rw [hcounts, runningSums, Nat.add_zero]

theorem foldlM_flatMap {σ : Type*} {g : γ → List β} {f : σ → β → Option σ} {l : List γ} {s : σ} :
    (l.flatMap g).foldlM f s = l.foldlM (fun s a => (g a).foldlM f s) s := by
  induction l generalizing s with
  | nil => rfl
  | cons a l ih =>
    rw [List.flatMap_cons, List.foldlM_append, List.foldlM_cons]
    congr 1
    funext s
    exact ih

end FrankenSim.Library
