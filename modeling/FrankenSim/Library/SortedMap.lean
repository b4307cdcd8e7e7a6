import FrankenSim.Library.Keyed

/-!
# Maps sorted by key

A map is the list of its entries in increasing order of keys, so maps with equal
lookups are equal and the entries are visited in one order.
-/
namespace FrankenSim.Library

structure SortedMap (K V : Type*) [LinearOrder K] where
  entries : List (K × V)
  sorted : (entries.map Prod.fst).Pairwise (· < ·)

namespace SortedMap

variable {K V : Type*} [LinearOrder K]

instance [DecidableEq V] : DecidableEq (SortedMap K V) := fun a b =>
  decidable_of_iff (a.entries = b.entries) (by cases a; cases b; simp)

def empty : SortedMap K V := ⟨[], List.Pairwise.nil⟩

def get? (m : SortedMap K V) (k : K) : Option V := (lookup Prod.fst k m.entries).map Prod.snd

def contains (m : SortedMap K V) (k : K) : Bool := (m.get? k).isSome

def keys (m : SortedMap K V) : List K := m.entries.map Prod.fst

def isEmpty (m : SortedMap K V) : Bool := m.entries.isEmpty

/-- Put an entry at its place, over the entry of the same key. -/
def insertEntry (k : K) (v : V) : List (K × V) → List (K × V)
  | [] => [(k, v)]
  | e :: rest =>
    if k < e.1 then (k, v) :: e :: rest
    else if k = e.1 then (k, v) :: rest
    else e :: insertEntry k v rest

theorem mem_insertEntry {k : K} {v : V} {e : K × V} {l : List (K × V)}
    (h : e ∈ insertEntry k v l) : e = (k, v) ∨ e ∈ l := by
  induction l with
  | nil => simpa [insertEntry] using h
  | cons e' rest ih =>
    unfold insertEntry at h
    split_ifs at h with hlt heq
    · simpa using h
    · rcases List.mem_cons.1 h with rfl | hmem
      · exact .inl rfl
      · exact .inr (List.mem_cons_of_mem _ hmem)
    · rcases List.mem_cons.1 h with rfl | hmem
      · exact .inr List.mem_cons_self
      · exact (ih hmem).imp id (List.mem_cons_of_mem _)

theorem sorted_insertEntry (k : K) (v : V) {l : List (K × V)}
    (h : (l.map Prod.fst).Pairwise (· < ·)) :
    ((insertEntry k v l).map Prod.fst).Pairwise (· < ·) := by
  induction l with
  | nil => simp [insertEntry]
  | cons e rest ih =>
    obtain ⟨hhead, htail⟩ := List.pairwise_cons.1 h
    unfold insertEntry
    split_ifs with hlt heq
    · apply List.pairwise_cons.2
      refine ⟨?_, h⟩
      intro j hj
      rcases List.mem_cons.1 hj with rfl | hmem
      · exact hlt
      · exact hlt.trans (hhead j hmem)
    · rw [heq]
      exact h
    · apply List.pairwise_cons.2
      refine ⟨?_, ih htail⟩
      intro j hj
      obtain ⟨e', hmem, rfl⟩ := List.mem_map.1 hj
      rcases mem_insertEntry hmem with rfl | hrest
      · exact lt_of_le_of_ne (not_lt.1 hlt) (Ne.symm heq)
      · exact hhead _ (List.mem_map_of_mem hrest)

def insert (m : SortedMap K V) (k : K) (v : V) : SortedMap K V :=
  ⟨insertEntry k v m.entries, sorted_insertEntry k v m.sorted⟩

def erase (m : SortedMap K V) (k : K) : SortedMap K V :=
  ⟨m.entries.filter fun e => e.1 ≠ k,
    m.sorted.sublist (List.filter_sublist.map _)⟩

variable {m m' : SortedMap K V} {j k : K} {v : V}

theorem nodup_keys (m : SortedMap K V) : (m.entries.map Prod.fst).Nodup :=
  m.sorted.imp ne_of_lt

@[simp]
theorem get?_empty : (empty : SortedMap K V).get? k = none := rfl

theorem get?_eq_some : m.get? k = some v ↔ (k, v) ∈ m.entries := by
  unfold get?
  constructor
  · intro h
    obtain ⟨e, he, rfl⟩ := Option.map_eq_some_iff.1 h
    obtain ⟨hmem, rfl⟩ := mem_of_lookup he
    exact hmem
  · intro h
    rw [lookup_of_mem m.nodup_keys h]
    rfl

theorem get?_eq_none : m.get? k = none ↔ k ∉ m.entries.map Prod.fst := by
  rw [get?, Option.map_eq_none_iff, lookup_eq_none]

theorem mem_insertEntry_iff {l : List (K × V)} (h : (l.map Prod.fst).Pairwise (· < ·))
    {e : K × V} : e ∈ insertEntry k v l ↔ e = (k, v) ∨ e ∈ l ∧ e.1 ≠ k := by
  induction l with
  | nil => simp [insertEntry]
  | cons e' rest ih =>
    obtain ⟨hhead, htail⟩ := List.pairwise_cons.1 h
    have habove {x : K × V} (hx : x ∈ rest) : e'.1 < x.1 := hhead _ (List.mem_map_of_mem hx)
    unfold insertEntry
    split_ifs with hlt heq
    · rw [List.mem_cons]
      refine or_congr_right ⟨fun hmem => ⟨hmem, ?_⟩, And.left⟩
      rcases List.mem_cons.1 hmem with rfl | hrest
      · exact hlt.ne'
      · exact (hlt.trans (habove hrest)).ne'
    · rw [List.mem_cons]
      refine or_congr_right ⟨fun hmem => ⟨List.mem_cons_of_mem _ hmem, ?_⟩, ?_⟩
      · rw [heq]
        exact (habove hmem).ne'
      · rintro ⟨hmem, hne⟩
        rcases List.mem_cons.1 hmem with rfl | hrest
        · exact absurd heq.symm hne
        · exact hrest
    · rw [List.mem_cons, ih htail, List.mem_cons]
      constructor
      · rintro (rfl | rfl | ⟨hmem, hne⟩)
        · exact .inr ⟨.inl rfl, Ne.symm heq⟩
        · exact .inl rfl
        · exact .inr ⟨.inr hmem, hne⟩
      · rintro (rfl | ⟨rfl | hmem, hne⟩)
        · exact .inr (.inl rfl)
        · exact .inl rfl
        · exact .inr (.inr ⟨hmem, hne⟩)

theorem get?_insert (m : SortedMap K V) (j k : K) (v : V) :
    (m.insert k v).get? j = if j = k then some v else m.get? j := by
  apply Option.ext
  intro w
  rw [get?_eq_some]
  change (j, w) ∈ insertEntry k v m.entries ↔ _
  rw [mem_insertEntry_iff m.sorted]
  split_ifs with hjk
  · subst hjk
    simp [eq_comm]
  · rw [get?_eq_some]
    simp [hjk]

theorem contains_iff : m.contains k ↔ k ∈ m.keys := by
  rw [contains, Option.isSome_iff_ne_none, ne_eq, get?_eq_none, not_not, keys]

theorem isEmpty_iff : m.isEmpty ↔ ∀ k, m.get? k = none := by
  unfold isEmpty
  rw [List.isEmpty_iff]
  constructor
  · intro h k
    rw [get?_eq_none, h]
    exact List.not_mem_nil
  · intro h
    apply List.eq_nil_iff_forall_not_mem.2
    rintro ⟨k, v⟩ hmem
    have hsome := get?_eq_some.2 hmem
    rw [h] at hsome
    cases hsome

/-- Steps that each change their own key act on every entry once. -/
theorem get?_foldl {W : Type*} {step : SortedMap K V → K × W → SortedMap K V}
    {f : K × W → Option V → V}
    (hstep : ∀ m e j, (step m e).get? j = if j = e.1 then some (f e (m.get? j)) else m.get? j)
    {l : List (K × W)} (hnodup : (l.map Prod.fst).Nodup) (m : SortedMap K V) (j : K) :
    (l.foldl step m).get? j =
      match lookup Prod.fst j l with
      | some e => some (f e (m.get? j))
      | none => m.get? j := by
  induction l generalizing m with
  | nil => rfl
  | cons e rest ih =>
    obtain ⟨hfresh, hrest⟩ := List.nodup_cons.1 hnodup
    rw [List.foldl_cons, ih hrest, hstep]
    by_cases hj : j = e.1
    · have hnone : lookup Prod.fst j rest = none := lookup_eq_none.2 (hj ▸ hfresh)
      have hhead : lookup Prod.fst j (e :: rest) = some e := by simp [lookup, hj]
      rw [hnone, hhead, if_pos hj]
    · have hskip : lookup Prod.fst j (e :: rest) = lookup Prod.fst j rest := by
        simp [lookup, Ne.symm hj]
      rw [if_neg hj, hskip]

end SortedMap

end FrankenSim.Library
