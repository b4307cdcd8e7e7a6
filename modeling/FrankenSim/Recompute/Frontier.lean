import FrankenSim.Library.Propagation
import FrankenSim.Recompute.Slack

/-!
# The frontier of a perturbation

In exact arithmetic the first pass of the planner computes the frontier of a
propagation: the magnitudes listed for the perturbed nodes enter there, and an
edge whose sensitivity is not a bound lets anything through. The nodes the pass
touches are those that the frontier reaches.
-/
namespace FrankenSim.Recompute

open Library ExactFloat

open scoped ENNReal

/-- The sum of the magnitudes listed for a node. -/
noncomputable def sourceSum (perturbations : List (ContentHash × ExactFloat))
    (k : ContentHash) : ℝ≥0∞ :=
  ((perturbations.filter fun p => p.1 = k).map fun p => toENNReal (FloatOps.abs p.2)).sum

/-- An unchanged input carries nothing; a sensitivity that is not a bound lets a
change of any size through. -/
noncomputable def carried : ExactFloat → ℝ≥0∞ → ℝ≥0∞
  | fin q, x => if 0 ≤ q then scale q x else if x = 0 then 0 else ⊤
  | _, x => if x = 0 then 0 else ⊤

theorem carried_mono (sensitivity : ExactFloat) : Monotone (carried sensitivity) := by
  have hblocked : Monotone fun x : ℝ≥0∞ => if x = 0 then (0 : ℝ≥0∞) else ⊤ := by
    intro x y hxy
    dsimp only
    by_cases hx : x = 0
    · simp [hx]
    · have hy : y ≠ 0 := fun h => hx (le_antisymm (h ▸ hxy) (zero_le))
      simp [hx, hy]
  cases sensitivity with
  | fin q =>
    intro x y hxy
    by_cases hq : 0 ≤ q
    · simpa [carried, hq] using scale_mono q hxy
    · simpa [carried, hq] using hblocked hxy
  | _ => exact hblocked

theorem carried_zero (sensitivity : ExactFloat) : carried sensitivity 0 = 0 := by
  cases sensitivity with
  | fin q => simp [carried, scale]
  | _ => simp [carried]

/-- The propagation that a plan computes. -/
noncomputable def propagation (edges : List (Edge ExactFloat))
    (perturbations : List (ContentHash × ExactFloat)) :
    Propagation ContentHash (Edge ExactFloat) where
  source := sourceSum perturbations
  edges := edges
  tail := Edge.fromNode
  head := Edge.toNode
  carry e := ⟨carried e.sensitivity, carried_mono _⟩

/-- What a perturbation can change at most at a node. -/
noncomputable def frontier (edges : List (Edge ExactFloat))
    (perturbations : List (ContentHash × ExactFloat)) : ContentHash → ℝ≥0∞ :=
  (propagation edges perturbations).frontier

theorem frontier_eq_inflow (edges : List (Edge ExactFloat))
    (perturbations : List (ContentHash × ExactFloat)) (k : ContentHash) :
    frontier edges perturbations k = sourceSum perturbations k +
      ((incoming edges k).map fun e =>
        carried e.sensitivity (frontier edges perturbations e.fromNode)).sum :=
  (propagation edges perturbations).frontier_eq k

/-- A map entry that stands for a magnitude; an absent one stands for zero. -/
def Represents (entry : Option ExactFloat) (x : ℝ≥0∞) : Prop :=
  match entry with
  | none => x = 0
  | some d => IsMagnitude d ∧ toENNReal d = x ∧ x ≠ 0

theorem Represents.getD {entry : Option ExactFloat} {x : ℝ≥0∞} (h : Represents entry x) :
    IsMagnitude (entry.getD 0) ∧ toENNReal (entry.getD 0) = x := by
  cases entry with
  | none => exact ⟨isMagnitude_zero, toENNReal_zero.trans h.symm⟩
  | some d => exact ⟨h.1, h.2.1⟩

theorem Represents.isSome {entry : Option ExactFloat} {x : ℝ≥0∞} (h : Represents entry x) :
    entry.isSome = true ↔ x ≠ 0 := by
  cases entry with
  | none => simp [show x = 0 from h]
  | some d => simpa using h.2.2

/-- What is not finite counts as infinite. -/
theorem saturate {x : ExactFloat} (hx : IsMagnitude x) :
    IsMagnitude (if FloatOps.isFinite x then x else FloatOps.infinity) ∧
      toENNReal (if FloatOps.isFinite x then x else FloatOps.infinity) = toENNReal x := by
  by_cases hfin : FloatOps.isFinite x = true
  · rw [if_pos hfin]
    exact ⟨hx, rfl⟩
  · rw [if_neg hfin]
    have htop : toENNReal x = ⊤ := by
      by_contra hne
      exact hfin ((isFinite_iff_ne_top hx).2 hne)
    exact ⟨trivial, htop.symm⟩

/-! ### Sources -/

theorem seqOf_ok {F : Type} {store : Store F} {h : ContentHash} {seq : ℕ}
    (hok : seqOf store h = .ok seq) : ∃ n, store.nodes[h]? = some n ∧ n.seq = seq := by
  unfold seqOf Store.get at hok
  split at hok
  · rename_i n hn
    cases hok
    exact ⟨n, hn, rfl⟩
  · cases hok

/-- What a listed delta adds to its node. -/
theorem magnitude_eq (δ : ExactFloat) :
    IsMagnitude (if FloatOps.isFinite δ then FloatOps.abs δ else FloatOps.infinity) ∧
      toENNReal (if FloatOps.isFinite δ then FloatOps.abs δ else FloatOps.infinity) =
        toENNReal (FloatOps.abs δ) := by
  have hsame : FloatOps.isFinite (FloatOps.abs δ) = FloatOps.isFinite δ := by cases δ <;> rfl
  have h := saturate (isMagnitude_abs δ)
  rwa [hsame] at h

theorem abs_eq_zero_iff (δ : ExactFloat) :
    toENNReal (FloatOps.abs δ) = 0 ↔ FloatOps.eq δ 0 = true := by
  rw [← eq_zero_iff (isMagnitude_abs δ), zero_def]
  cases δ with
  | fin q =>
    change FloatOps.eq (fin |q|) (fin 0) = true ↔ _
    simp
  | _ => simp [FloatOps.eq, FloatOps.abs, ExactFloat.eq, ExactFloat.abs]

theorem addSource_ok {store : Store ExactFloat} {sources sources' : Std.TreeMap ContentHash ExactFloat}
    {p : ContentHash × ExactFloat} (h : addSource store sources p = .ok sources')
    {total : ContentHash → ℝ≥0∞} (htotal : ∀ k : ContentHash, Represents sources[k]? (total k)) :
    (∃ n, store.nodes[p.1]? = some n) ∧ ∀ k : ContentHash, Represents sources'[k]?
      (total k + if p.1 = k then toENNReal (FloatOps.abs p.2) else 0) := by
  unfold addSource at h
  cases hseq : seqOf store p.1 with
  | error error =>
    rw [hseq] at h
    cases h
  | ok seq =>
    rw [hseq] at h
    obtain ⟨n, hn, -⟩ := seqOf_ok hseq
    refine ⟨⟨n, hn⟩, fun k => ?_⟩
    by_cases hzero : FloatOps.eq p.2 0 = true
    · simp only [bind, Except.bind, hzero, if_true] at h
      cases h
      rw [(abs_eq_zero_iff p.2).2 hzero, ite_self, add_zero]
      exact htotal k
    · simp only [bind, Except.bind, hzero] at h
      cases h
      rw [Std.TreeMap.getElem?_insert]
      by_cases hk : p.1 = k
      · subst hk
        obtain ⟨hmag, hval⟩ := magnitude_eq p.2
        obtain ⟨hold, holdval⟩ := (htotal p.1).getD
        rw [← Std.TreeMap.getD_eq_getD_getElem?] at hold holdval
        obtain ⟨hsum, hsumval⟩ := saturate (hold.add hmag)
        rw [toENNReal_add hold hmag, holdval, hval] at hsumval
        rw [if_pos Std.ReflCmp.compare_self, if_pos rfl]
        refine ⟨hsum, hsumval, fun h0 => hzero ((abs_eq_zero_iff p.2).1 ?_)⟩
        exact (add_eq_zero.1 h0).2
      · simp only [compare_eq_iff_eq, hk, if_false, add_zero]
        exact htotal k

theorem sources_ok {store : Store ExactFloat} {perturbations : List (ContentHash × ExactFloat)} :
    ∀ {sources sources' : Std.TreeMap ContentHash ExactFloat},
      perturbations.foldlM (addSource store) sources = .ok sources' →
      ∀ total : ContentHash → ℝ≥0∞, (∀ k : ContentHash, Represents sources[k]? (total k)) →
        (∀ p ∈ perturbations, ∃ n, store.nodes[p.1]? = some n) ∧
        ∀ k : ContentHash, Represents sources'[k]? (total k + sourceSum perturbations k) := by
  induction perturbations with
  | nil =>
    intro sources sources' h total htotal
    cases h
    exact ⟨by simp, by simpa [sourceSum] using htotal⟩
  | cons p perturbations ih =>
    intro sources sources' h total htotal
    rw [List.foldlM_cons] at h
    cases hfirst : addSource store sources p with
    | error error =>
      rw [hfirst] at h
      cases h
    | ok mid =>
      rw [hfirst] at h
      obtain ⟨hnode, hmid⟩ := addSource_ok hfirst htotal
      obtain ⟨hrest, hsum⟩ := ih h _ hmid
      refine ⟨List.forall_mem_cons.2 ⟨hnode, hrest⟩, fun k => ?_⟩
      have hcons : sourceSum (p :: perturbations) k =
          (if p.1 = k then toENNReal (FloatOps.abs p.2) else 0) + sourceSum perturbations k := by
        by_cases hk : p.1 = k <;> simp [sourceSum, hk]
      rw [hcons, ← add_assoc]
      exact hsum k

/-! ### One node -/

/-- What has come in at a node. -/
noncomputable def Inflow.value (i : Inflow ExactFloat) : ℝ≥0∞ :=
  if i.nonfinite || i.negativeSensitivity then ⊤ else toENNReal i.bound

theorem addEdge_value {delta : Std.TreeMap ContentHash ExactFloat} {acc : Inflow ExactFloat}
    (hacc : IsMagnitude acc.bound) {e : Edge ExactFloat} {x : ℝ≥0∞}
    (hx : Represents delta[e.fromNode]? x) :
    IsMagnitude (addEdge delta acc e).bound ∧
      (addEdge delta acc e).value = acc.value + carried e.sensitivity x := by
  unfold addEdge
  cases hd : delta[e.fromNode]? with
  | none =>
    rw [hd] at hx
    obtain rfl : x = 0 := hx
    exact ⟨hacc, by rw [carried_zero, add_zero]⟩
  | some d =>
    rw [hd] at hx
    obtain ⟨hmag, hval, hne⟩ := hx
    cases hs : e.sensitivity with
    | fin q =>
      by_cases hq : 0 ≤ q
      · have hlt : ¬ q < 0 := not_lt.2 hq
        have hbound := toENNReal_add hacc (IsMagnitude.mul hq hmag)
        rw [toENNReal_mul hq hmag, hval] at hbound
        simp only [isFinite_fin, zero_def, lt_fin, hlt, carried, hq, if_true, decide_false,
          Bool.not_true, Bool.false_eq_true, if_false]
        refine ⟨hacc.add (IsMagnitude.mul hq hmag), ?_⟩
        unfold Inflow.value
        split_ifs
        · exact (top_add _).symm
        · exact hbound
      · have hlt : q < 0 := not_le.1 hq
        simpa [zero_def, hlt, carried, hq, hne, Inflow.value] using hacc
    | _ => simpa [FloatOps.isFinite, isFinite, carried, hne, Inflow.value] using hacc

theorem foldl_addEdge (delta : Std.TreeMap ContentHash ExactFloat) (x : ContentHash → ℝ≥0∞)
    (es : List (Edge ExactFloat)) :
    ∀ acc : Inflow ExactFloat, IsMagnitude acc.bound →
      (∀ e ∈ es, Represents delta[e.fromNode]? (x e.fromNode)) →
      IsMagnitude (es.foldl (addEdge delta) acc).bound ∧
        (es.foldl (addEdge delta) acc).value =
          acc.value + (es.map fun e => carried e.sensitivity (x e.fromNode)).sum := by
  induction es with
  | nil => exact fun acc hacc _ => ⟨hacc, by simp⟩
  | cons e es ih =>
    intro acc hacc hes
    obtain ⟨he, hes⟩ := List.forall_mem_cons.1 hes
    obtain ⟨hmag, hval⟩ := addEdge_value hacc he
    obtain ⟨hmags, hvals⟩ := ih _ hmag hes
    refine ⟨hmags, ?_⟩
    rw [List.foldl_cons, hvals, hval, List.map_cons, List.sum_cons, add_assoc]

theorem value_eq_zero_iff {i : Inflow ExactFloat} (hi : IsMagnitude i.bound) :
    (FloatOps.eq i.bound 0 && !i.nonfinite && !i.negativeSensitivity) = true ↔ i.value = 0 := by
  have hbound := eq_zero_iff hi
  unfold Inflow.value
  cases i.nonfinite <;> cases i.negativeSensitivity <;> simp [hbound]

theorem value_delta {i : Inflow ExactFloat} (hi : IsMagnitude i.bound) (hne : i.value ≠ 0) :
    Represents (some (if FloatOps.isFinite i.bound && !i.nonfinite && !i.negativeSensitivity then
      i.bound else FloatOps.infinity)) i.value := by
  have hsaturate := saturate hi
  unfold Inflow.value at hne ⊢
  cases hn : i.nonfinite <;> cases hs : i.negativeSensitivity
  · simpa [hn, hs, Represents, hsaturate] using hne
  all_goals simp [Represents, IsMagnitude, toENNReal, FloatOps.infinity]

/-! ### The pass over the stored nodes -/

section Order

variable {F : Type} {store : Store F}

theorem mem_topologicalOrder {k : ContentHash} {n : StoredNode F} :
    (k, n) ∈ topologicalOrder store ↔ store.nodes[k]? = some n := by
  rw [topologicalOrder, List.mem_insertionSort]
  exact Std.TreeMap.mem_toList_iff_getElem?_eq_some

theorem topologicalOrder_sorted (store : Store F) :
    (topologicalOrder store).Pairwise fun a b => a.2.seq ≤ b.2.seq :=
  List.pairwise_insertionSort _ _

theorem topologicalOrder_nodup (store : Store F) :
    ((topologicalOrder store).map Prod.fst).Nodup := by
  have hperm := (List.perm_insertionSort (fun a b : ContentHash × StoredNode F =>
    a.2.seq ≤ b.2.seq) store.nodes.toList).map Prod.fst
  refine hperm.nodup_iff.2 ?_
  rw [Std.TreeMap.map_fst_toList_eq_keys]
  exact Std.TreeMap.nodup_keys

/-- Along every edge of an accepted plan both ends are stored, and the upstream
one was stored first. -/
def Ordered (store : Store F) (edges : List (Edge F)) : Prop :=
  ∀ e ∈ edges, ∃ m n, store.nodes[e.fromNode]? = some m ∧ store.nodes[e.toNode]? = some n ∧
    m.seq < n.seq

theorem ordered_of_checkEdge {edges : List (Edge F)}
    (h : edges.forM (checkEdge store) = .ok ()) : Ordered store edges := by
  intro e he
  have hok := forM_ok.1 h e he
  unfold checkEdge at hok
  cases hfrom : seqOf store e.fromNode with
  | error error => simp [hfrom, bind, Except.bind] at hok
  | ok sf =>
    cases hto : seqOf store e.toNode with
    | error error => simp [hfrom, hto, bind, Except.bind] at hok
    | ok st =>
      obtain ⟨m, hm, rfl⟩ := seqOf_ok hfrom
      obtain ⟨n, hn, rfl⟩ := seqOf_ok hto
      refine ⟨m, n, hm, hn, ?_⟩
      by_contra hle
      simp [hfrom, hto, bind, Except.bind, not_lt.1 hle, throw, throwThe,
        MonadExceptOf.throw] at hok

/-- The upstream end of an edge into a node comes before the node. -/
theorem Ordered.mem_before {edges : List (Edge F)} (h : Ordered store edges)
    {done rest : List (ContentHash × StoredNode F)} {k : ContentHash} {n : StoredNode F}
    (horder : topologicalOrder store = done ++ (k, n) :: rest) {e : Edge F}
    (he : e ∈ incoming edges k) : e.fromNode ∈ done.map Prod.fst := by
  obtain ⟨hmem, hto⟩ : e ∈ edges ∧ e.toNode = k := by simpa [incoming] using he
  obtain ⟨m, n', hm, hn', hlt⟩ := h e hmem
  have hkn : store.nodes[k]? = some n :=
    mem_topologicalOrder.1 (by rw [horder]; simp)
  obtain rfl : n' = n := by
    rw [hto, hkn] at hn'
    exact (Option.some.inj hn').symm
  have hfrom := mem_topologicalOrder.2 hm
  rw [horder, List.mem_append] at hfrom
  rcases hfrom with hdone | hlater
  · exact List.mem_map_of_mem hdone
  · have hsorted := topologicalOrder_sorted store
    rw [horder] at hsorted
    have htail := (List.pairwise_append.1 hsorted).2.1
    rcases List.mem_cons.1 hlater with heq | hrest
    · obtain rfl := (Prod.mk.inj heq).2
      exact absurd hlt (lt_irrefl _)
    · exact absurd hlt (not_lt.2 ((List.pairwise_cons.1 htail).1 _ hrest))

end Order

/-- What the first pass records about a touched node. -/
structure TouchOf (edges : List (Edge ExactFloat))
    (perturbations : List (ContentHash × ExactFloat)) [HashBytes] (n : StoredNode ExactFloat)
    (t : Touch ExactFloat) : Prop where
  hash : t.hash = n.record.contentHash
  slack : t.slack = n.effectiveSlack
  source : t.source = true ↔ sourceSum perturbations t.key ≠ 0
  magnitude : IsMagnitude t.bound
  value : Inflow.value ⟨t.bound, t.nonfinite, t.negativeSensitivity⟩ =
    frontier edges perturbations t.key

open Classical in
/-- The first pass has computed the frontier of the nodes it has visited. -/
structure Visited [HashBytes] (edges : List (Edge ExactFloat))
    (perturbations : List (ContentHash × ExactFloat))
    (done : List (ContentHash × StoredNode ExactFloat))
    (acc : Std.TreeMap ContentHash ExactFloat × List (Touch ExactFloat)) : Prop where
  deltas : ∀ k : ContentHash, k ∈ done.map Prod.fst →
    Represents acc.1[k]? (frontier edges perturbations k)
  absent : ∀ k : ContentHash, k ∉ done.map Prod.fst → acc.1[k]? = none
  keys : acc.2.map Touch.key =
    (done.map Prod.fst).filter fun k => frontier edges perturbations k ≠ 0
  touches : ∀ t ∈ acc.2, ∃ n, (t.key, n) ∈ done ∧ TouchOf edges perturbations n t

section Pass

variable [HashBytes] {store : Store ExactFloat} {edges : List (Edge ExactFloat)}
  {perturbations : List (ContentHash × ExactFloat)}
  {sources : Std.TreeMap ContentHash ExactFloat}

theorem Visited.touchNode
    (hsources : ∀ k : ContentHash, Represents sources[k]? (sourceSum perturbations k))
    {done : List (ContentHash × StoredNode ExactFloat)}
    {acc : Std.TreeMap ContentHash ExactFloat × List (Touch ExactFloat)}
    (h : Visited edges perturbations done acc) {k : ContentHash} {n : StoredNode ExactFloat}
    (hnew : k ∉ done.map Prod.fst)
    (hbefore : ∀ e ∈ incoming edges k, e.fromNode ∈ done.map Prod.fst) :
    Visited edges perturbations (done ++ [(k, n)]) (touchNode edges sources acc (k, n)) := by
  obtain ⟨hmag, hval⟩ := (hsources k).getD
  obtain ⟨hbound, hvalue⟩ := foldl_addEdge acc.1 (frontier edges perturbations)
    (incoming edges k) ⟨sources[k]?.getD 0, false, false⟩ hmag fun e he => h.deltas _ (hbefore e he)
  have hzero : Inflow.value ⟨sources[k]?.getD 0, false, false⟩ = sourceSum perturbations k := hval
  rw [hzero, ← frontier_eq_inflow] at hvalue
  unfold Recompute.touchNode
  dsimp only
  generalize (incoming edges k).foldl (addEdge acc.1) ⟨sources[k]?.getD 0, false, false⟩ = inflow
    at hbound hvalue ⊢
  have hkeys : (done ++ [(k, n)]).map Prod.fst = done.map Prod.fst ++ [k] := by simp
  by_cases huntouched :
      (FloatOps.eq inflow.bound 0 && !inflow.nonfinite && !inflow.negativeSensitivity) = true
  · rw [if_pos huntouched]
    have hnone : frontier edges perturbations k = 0 :=
      hvalue.symm.trans ((value_eq_zero_iff hbound).1 huntouched)
    refine ⟨fun k' hk' => ?_, fun k' hk' => ?_, ?_, fun t ht => ?_⟩
    · rw [hkeys, List.mem_append, List.mem_singleton] at hk'
      rcases hk' with hk' | rfl
      · exact h.deltas k' hk'
      · rw [h.absent _ hnew]
        exact hnone
    · rw [hkeys, List.mem_append, not_or] at hk'
      exact h.absent k' hk'.1
    · rw [h.keys, hkeys, List.filter_append]
      simp [hnone]
    · obtain ⟨m, hm, htouch⟩ := h.touches t ht
      exact ⟨m, List.mem_append_left _ hm, htouch⟩
  · rw [if_neg huntouched]
    have hsome : inflow.value ≠ 0 := fun h0 => huntouched ((value_eq_zero_iff hbound).2 h0)
    have hdelta := value_delta hbound hsome
    refine ⟨fun k' hk' => ?_, fun k' hk' => ?_, ?_, fun t ht => ?_⟩
    · rw [Std.TreeMap.getElem?_insert]
      by_cases hkk : k = k'
      · subst hkk
        rw [if_pos Std.ReflCmp.compare_self, ← hvalue]
        exact hdelta
      · rw [hkeys, List.mem_append, List.mem_singleton] at hk'
        rw [if_neg (by simpa using hkk)]
        exact h.deltas k' (hk'.resolve_right (Ne.symm hkk))
    · rw [hkeys, List.mem_append, List.mem_singleton, not_or] at hk'
      rw [Std.TreeMap.getElem?_insert, if_neg (by simpa using Ne.symm hk'.2)]
      exact h.absent k' hk'.1
    · rw [hvalue] at hsome
      rw [List.map_append, h.keys, hkeys, List.filter_append]
      simp [hsome]
    · rcases List.mem_append.1 ht with ht | ht
      · obtain ⟨m, hm, htouch⟩ := h.touches t ht
        exact ⟨m, List.mem_append_left _ hm, htouch⟩
      · obtain rfl := List.mem_singleton.1 ht
        refine ⟨n, List.mem_append_right _ (List.mem_singleton.2 rfl), rfl, rfl, ?_, hbound, hvalue⟩
        exact (hsources k).isSome

/-- The first pass computes the frontier. -/
theorem visited_topologicalOrder
    (hsources : ∀ k : ContentHash, Represents sources[k]? (sourceSum perturbations k))
    (hordered : Ordered store edges) :
    Visited edges perturbations (topologicalOrder store)
      ((topologicalOrder store).foldl (touchNode edges sources) (∅, [])) := by
  suffices hprefix : ∀ done rest : List (ContentHash × StoredNode ExactFloat),
      topologicalOrder store = done ++ rest →
      Visited edges perturbations done (done.foldl (touchNode edges sources) (∅, [])) from
    hprefix _ [] (List.append_nil _).symm
  intro done
  induction done using List.reverseRecOn with
  | nil =>
    intro rest _
    exact ⟨by simp, by simp, by simp, by simp⟩
  | append_singleton done entry ih =>
    intro rest hrest
    obtain ⟨k, n⟩ := entry
    rw [List.append_assoc] at hrest
    rw [List.foldl_append]
    refine (ih _ hrest).touchNode hsources (fun hk => ?_) fun e he => hordered.mem_before hrest he
    have hnodup := topologicalOrder_nodup store
    rw [hrest, List.map_append] at hnodup
    exact (List.nodup_append.1 hnodup).2.2 k hk k (by simp) rfl

end Pass

end FrankenSim.Recompute
