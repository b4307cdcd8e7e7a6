import FrankenSim.Library.Closure
import FrankenSim.Recompute.Frontier

/-!
# The verdicts of a plan

The reverse sweep of the planner computes an upward closure, so in exact
arithmetic a plan lists the nodes that the perturbation reaches, and recomputes
exactly those that have to be: the ones that cannot absorb what reaches them and
the reached ancestors of these.
-/
namespace FrankenSim.Recompute

open Library ExactFloat

open scoped ENNReal

/-! ### The reverse sweep -/

section Sweep

variable {F : Type}

def IsRecompute (reasons : List (Reasoned F)) (k : ContentHash) : Prop :=
  ∃ r ∈ reasons, r.1.key = k ∧ r.2 ≠ none

/-- An edge between two of the listed nodes. -/
def Linked (edges : List (Edge F)) (keys : List ContentHash) (u v : ContentHash) : Prop :=
  (∃ e ∈ edges, e.fromNode = u ∧ e.toNode = v) ∧ u ∈ keys ∧ v ∈ keys

def keysOf (reasons : List (Reasoned F)) : List ContentHash := reasons.map fun r => r.1.key

theorem pullParent_fst (reasons : List (Reasoned F)) (e : Edge F) :
    (pullParent reasons e).map Prod.fst = reasons.map Prod.fst := by
  simp only [pullParent, List.map_map]
  refine List.map_congr_left fun r _ => ?_
  by_cases h : r.1.key = e.fromNode ∧ r.2 = none <;> simp [h]

theorem isRecompute_pullParent {reasons : List (Reasoned F)} {e : Edge F} {u : ContentHash} :
    IsRecompute (pullParent reasons e) u ↔
      IsRecompute reasons u ∨ (e.fromNode = u ∧ u ∈ keysOf reasons) := by
  simp only [IsRecompute, pullParent, keysOf, List.mem_map]
  constructor
  · rintro ⟨_, ⟨r, hr, rfl⟩, hkey, hsome⟩
    by_cases h : r.1.key = e.fromNode ∧ r.2 = none
    · rw [if_pos h] at hkey
      exact Or.inr ⟨h.1.symm.trans hkey, r, hr, hkey⟩
    · rw [if_neg h] at hkey hsome
      exact Or.inl ⟨r, hr, hkey, hsome⟩
  · rintro (⟨r, hr, hkey, hsome⟩ | ⟨hfrom, r, hr, hkey⟩)
    · exact ⟨_, ⟨r, hr, rfl⟩, by simp [hsome, hkey]⟩
    · by_cases hnone : r.2 = none
      · exact ⟨_, ⟨r, hr, rfl⟩, by simp [hkey, hfrom, hnone]⟩
      · exact ⟨_, ⟨r, hr, rfl⟩, by simp [hkey, hnone]⟩

theorem foldl_pullParent (es : List (Edge F)) :
    ∀ reasons : List (Reasoned F), (es.foldl pullParent reasons).map Prod.fst =
        reasons.map Prod.fst ∧
      ∀ u, IsRecompute (es.foldl pullParent reasons) u ↔
        IsRecompute reasons u ∨ ((∃ e ∈ es, e.fromNode = u) ∧ u ∈ keysOf reasons) := by
  induction es with
  | nil => simp
  | cons e es ih =>
    intro reasons
    obtain ⟨hfst, hrec⟩ := ih (pullParent reasons e)
    rw [pullParent_fst] at hfst
    have hkeys : keysOf (pullParent reasons e) = keysOf reasons := by
      have h := congrArg (List.map Touch.key) (pullParent_fst reasons e)
      rwa [List.map_map, List.map_map] at h
    refine ⟨hfst, fun u => ?_⟩
    rw [List.foldl_cons, hrec u, isRecompute_pullParent, hkeys]
    simp only [List.exists_mem_cons_iff]
    tauto

theorem pullParents_spec (edges : List (Edge F)) {reasons : List (Reasoned F)} {i : ℕ}
    (hnodup : (keysOf reasons).Nodup) {v : ContentHash} (hv : (keysOf reasons)[i]? = some v) :
    (pullParents edges reasons i).map Prod.fst = reasons.map Prod.fst ∧
      ∀ u, IsRecompute (pullParents edges reasons i) u ↔
        IsRecompute reasons u ∨ (IsRecompute reasons v ∧ Linked edges (keysOf reasons) u v) := by
  obtain ⟨⟨t, reason⟩, hi, rfl⟩ : ∃ r, reasons[i]? = some r ∧ r.1.key = v := by
    simpa [keysOf] using hv
  have hmem : (t, reason) ∈ reasons := List.mem_of_getElem? hi
  have hunique : IsRecompute reasons t.key ↔ reason ≠ none := by
    refine ⟨?_, fun h => ⟨_, hmem, rfl, h⟩⟩
    rintro ⟨r, hr, hkey, hsome⟩
    obtain rfl : r = (t, reason) := List.inj_on_of_nodup_map hnodup hr hmem hkey
    exact hsome
  have hlisted : t.key ∈ keysOf reasons := List.mem_map.2 ⟨_, hmem, rfl⟩
  unfold pullParents
  cases reason with
  | none =>
    rw [hi]
    refine ⟨rfl, fun u => ⟨Or.inl, fun h => h.resolve_right fun hpull => ?_⟩⟩
    exact hunique.1 hpull.1 rfl
  | some reason =>
    rw [hi]
    obtain ⟨hfst, hrec⟩ := foldl_pullParent (incoming edges t.key) reasons
    refine ⟨hfst, fun u => (hrec u).trans (or_congr_right ?_)⟩
    rw [hunique]
    simp only [incoming, List.mem_filter, decide_eq_true_eq, Linked]
    constructor
    · rintro ⟨⟨e, ⟨he, hto⟩, hfrom⟩, hu⟩
      exact ⟨by simp, ⟨e, he, hfrom, hto⟩, hu, hlisted⟩
    · rintro ⟨-, ⟨e, he, hfrom, hto⟩, hu, -⟩
      exact ⟨⟨e, ⟨he, hto⟩, hfrom⟩, hu⟩

theorem foldl_pullParents (edges : List (Edge F)) (n : ℕ) :
    ∀ reasons : List (Reasoned F), (keysOf reasons).Nodup → n ≤ reasons.length →
      ((List.range n).reverse.foldl (pullParents edges) reasons).map Prod.fst =
          reasons.map Prod.fst ∧
        ∀ u, IsRecompute ((List.range n).reverse.foldl (pullParents edges) reasons) u ↔
          sweep (Linked edges (keysOf reasons)) ((keysOf reasons).take n).reverse
            (IsRecompute reasons) u := by
  induction n with
  | zero => simp [sweep]
  | succ n ih =>
    intro reasons hnodup hlen
    have hlt : n < (keysOf reasons).length := by simpa [keysOf] using hlen
    obtain ⟨hfst, hrec⟩ := pullParents_spec edges hnodup
      (List.getElem?_eq_getElem hlt)
    have hkeys : keysOf (pullParents edges reasons n) = keysOf reasons := by
      have h := congrArg (List.map Touch.key) hfst
      rwa [List.map_map, List.map_map] at h
    have hlength : (pullParents edges reasons n).length = reasons.length := by
      simpa using congrArg List.length hfst
    obtain ⟨hfsts, hrecs⟩ := ih (pullParents edges reasons n) (hkeys ▸ hnodup) (by omega)
    rw [List.range_succ, List.reverse_append, List.reverse_singleton, List.singleton_append,
      List.foldl_cons]
    refine ⟨hfsts.trans hfst, fun u => ?_⟩
    rw [hrecs u, hkeys, List.take_succ_eq_append_getElem hlt, List.reverse_append,
      List.reverse_singleton, List.singleton_append]
    exact sweep_congr hrec u

/-- The third pass computes the upward closure along the listed edges. -/
theorem isRecompute_upwardClosure (edges : List (Edge F)) (reasons : List (Reasoned F))
    (hnodup : (keysOf reasons).Nodup)
    (hsorted : (keysOf reasons).Pairwise fun a b => ¬ Linked edges (keysOf reasons) b a)
    (hirrefl : ∀ v, ¬ Linked edges (keysOf reasons) v v) :
    (upwardClosure edges reasons).map Prod.fst = reasons.map Prod.fst ∧
      ∀ u, IsRecompute (upwardClosure edges reasons) u ↔
        Pulled (Linked edges (keysOf reasons)) (IsRecompute reasons) u := by
  obtain ⟨hfst, hrec⟩ := foldl_pullParents edges reasons.length reasons hnodup le_rfl
  have hall : (keysOf reasons).take reasons.length = keysOf reasons :=
    List.take_of_length_le (by simp [keysOf])
  refine ⟨hfst, fun u => (hrec u).trans ?_⟩
  rw [hall]
  refine sweep_iff_pulled (List.pairwise_reverse.2 hsorted) (fun v _ => hirrefl v) ?_ u
  exact fun _ v hlinked => List.mem_reverse.2 hlinked.2.2

end Sweep

/-! ### The verdicts -/

/-- A perturbation that a node absorbs: it enters elsewhere and what reaches the
node fits strictly inside its slack. -/
def Absorbs (store : Store ExactFloat) (edges : List (Edge ExactFloat))
    (perturbations : List (ContentHash × ExactFloat)) (k : ContentHash) : Prop :=
  sourceSum perturbations k = 0 ∧ ∃ n, store.nodes[k]? = some n ∧
    frontier edges perturbations k < toENNReal n.effectiveSlack

/-- An edge along which a recomputed node pulls in its upstream node. -/
def Feeds (edges : List (Edge ExactFloat)) (perturbations : List (ContentHash × ExactFloat))
    (u v : ContentHash) : Prop :=
  (∃ e ∈ edges, e.fromNode = u ∧ e.toNode = v) ∧
    frontier edges perturbations u ≠ 0 ∧ frontier edges perturbations v ≠ 0

/-- The least set of reached nodes that has every node that does not absorb the
perturbation, and with a node the reached nodes that feed it. -/
def MustRecompute (store : Store ExactFloat) (edges : List (Edge ExactFloat))
    (perturbations : List (ContentHash × ExactFloat)) : ContentHash → Prop :=
  Pulled (Feeds edges perturbations) fun k =>
    frontier edges perturbations k ≠ 0 ∧ ¬ Absorbs store edges perturbations k

theorem initialReason_eq_none {t : Touch ExactFloat} (hmag : IsMagnitude t.bound) {slack : ℚ}
    (hslack : t.slack = fin slack) :
    initialReason t = none ↔ t.source = false ∧
      Inflow.value ⟨t.bound, t.nonfinite, t.negativeSensitivity⟩ < toENNReal t.slack := by
  unfold initialReason Inflow.value
  rw [hslack]
  cases t.source
  · cases t.nonfinite <;> cases t.negativeSensitivity
    · cases hb : t.bound with
      | fin b =>
        have hnonneg : 0 ≤ b := by rwa [hb] at hmag
        have hcast : (0 : ℝ) ≤ b := by exact_mod_cast hnonneg
        have hlt : ENNReal.ofReal b < ENNReal.ofReal slack ↔ b < slack := by
          rw [ENNReal.ofReal_lt_ofReal_iff_of_nonneg hcast]
          exact_mod_cast Iff.rfl
        simp only [Bool.false_eq_true, if_false, isFinite_fin, Bool.not_true, Bool.or_self,
          zero_def, lt_fin, eq_fin, decide_eq_true_eq, toENNReal, true_and, hlt]
        split_ifs with h1 h2 h3 <;> simp <;> linarith
      | negInf =>
        rw [hb] at hmag
        exact absurd hmag id
      | _ => simp [FloatOps.isFinite, isFinite, toENNReal]
    all_goals simp
    split_ifs <;> simp
  · simp

section Plan

variable [HashBytes] {store : Store ExactFloat} {edges : List (Edge ExactFloat)}
  {perturbations : List (ContentHash × ExactFloat)} {p : InvalidationPlan ExactFloat}

/-- What an accepted plan says. -/
structure PlanOf (store : Store ExactFloat) (edges : List (Edge ExactFloat))
    (perturbations : List (ContentHash × ExactFloat)) (p : InvalidationPlan ExactFloat) :
    Prop where
  ordered : Ordered store edges
  nodup : (p.verdicts.map Prod.fst).Nodup
  sorted : p.verdicts.Pairwise fun a b => ∀ m n, store.nodes[a.1]? = some m →
    store.nodes[b.1]? = some n → m.seq ≤ n.seq
  stored : ∀ k, frontier edges perturbations k ≠ 0 → ∃ n, store.nodes[k]? = some n
  reached : ∀ k, k ∈ p.verdicts.map Prod.fst ↔ frontier edges perturbations k ≠ 0
  recompute : ∀ k bound reason, (k, Verdict.recompute bound reason) ∈ p.verdicts →
    MustRecompute store edges perturbations k
  skip : ∀ k bound left, (k, Verdict.skip bound left) ∈ p.verdicts →
    ¬ MustRecompute store edges perturbations k ∧ ∃ (n : StoredNode ExactFloat) (b slack : ℚ),
      store.nodes[k]? = some n ∧ n.effectiveSlack = fin slack ∧ bound = fin b ∧
        left = fin (slack - b) ∧ frontier edges perturbations k = ENNReal.ofReal b ∧
        0 ≤ b ∧ b < slack
  revision : p.storeRevision = store.revision
  state : p.storeState = store.stateFingerprint

omit [HashBytes] in
/-- Nothing reaches a node that is not stored. -/
theorem frontier_of_absent (hordered : Ordered store edges)
    (hsources : ∀ p ∈ perturbations, ∃ n, store.nodes[p.1]? = some n) {k : ContentHash}
    (hk : frontier edges perturbations k ≠ 0) : ∃ n, store.nodes[k]? = some n := by
  by_contra habsent
  refine hk ((propagation edges perturbations).frontier_eq_zero.2 ⟨?_, fun e he hto => ?_⟩)
  · refine List.sum_eq_zero_iff.2 fun x hx => ?_
    obtain ⟨p, hp, rfl⟩ := List.mem_map.1 hx
    obtain ⟨hp, hpk⟩ := List.mem_filter.1 hp
    exact absurd ((of_decide_eq_true hpk : p.1 = k) ▸ hsources p hp) habsent
  · obtain ⟨-, n, -, hn, -⟩ := hordered e he
    exact absurd ⟨n, (hto : e.toNode = k) ▸ hn⟩ habsent

/-- What the first pass hands to the others. -/
structure Touched (store : Store ExactFloat) (edges : List (Edge ExactFloat))
    (perturbations : List (ContentHash × ExactFloat)) (touched : List (Touch ExactFloat)) :
    Prop where
  nodup : (touched.map Touch.key).Nodup
  sorted : (touched.map Touch.key).Pairwise fun a b => ∀ m n, store.nodes[a]? = some m →
    store.nodes[b]? = some n → m.seq ≤ n.seq
  reached : ∀ k, k ∈ touched.map Touch.key ↔ frontier edges perturbations k ≠ 0
  each : ∀ t ∈ touched, ∃ n, store.nodes[t.key]? = some n ∧ TouchOf edges perturbations n t

theorem touched_spec {sources : Std.TreeMap ContentHash ExactFloat}
    (hordered : Ordered store edges)
    (hstored : ∀ p ∈ perturbations, ∃ n, store.nodes[p.1]? = some n)
    (hsources : ∀ k : ContentHash, Represents sources[k]? (sourceSum perturbations k)) :
    Touched store edges perturbations
      ((topologicalOrder store).foldl (touchNode edges sources) (∅, [])).2 := by
  have hvisited := visited_topologicalOrder hsources hordered
  refine ⟨?_, ?_, fun k => ?_, fun t ht => ?_⟩
  · rw [hvisited.keys]
    exact (topologicalOrder_nodup store).filter _
  · rw [hvisited.keys]
    refine List.Pairwise.filter _ (List.pairwise_map.2 ?_)
    refine (topologicalOrder_sorted store).imp_of_mem fun {a b} ha hb hle m n hm hn => ?_
    obtain rfl : a.2 = m := Option.some.inj ((mem_topologicalOrder.1 ha).symm.trans hm)
    obtain rfl : b.2 = n := Option.some.inj ((mem_topologicalOrder.1 hb).symm.trans hn)
    exact hle
  · rw [hvisited.keys, List.mem_filter, decide_eq_true_eq]
    refine and_iff_right_of_imp fun hk => ?_
    obtain ⟨n, hn⟩ := frontier_of_absent hordered hstored hk
    exact List.mem_map.2 ⟨(k, n), mem_topologicalOrder.2 hn, rfl⟩
  · obtain ⟨n, hn, htouch⟩ := hvisited.touches t ht
    exact ⟨n, mem_topologicalOrder.1 hn, htouch⟩

theorem Touched.base {touched : List (Touch ExactFloat)}
    (h : Touched store edges perturbations touched) (hbudget : Budgeted store) (k : ContentHash) :
    IsRecompute (touched.map fun t => (t, initialReason t)) k ↔
      frontier edges perturbations k ≠ 0 ∧ ¬ Absorbs store edges perturbations k := by
  have hone : ∀ t ∈ touched,
      initialReason t = none ↔ Absorbs store edges perturbations t.key := by
    intro t ht
    obtain ⟨n, hn, htouch⟩ := h.each t ht
    obtain ⟨slack, burned, hb⟩ := hbudget t.key n hn
    rw [initialReason_eq_none htouch.magnitude (htouch.slack.trans hb.effectiveSlack),
      htouch.value, htouch.slack]
    have hsource : t.source = false ↔ sourceSum perturbations t.key = 0 := by
      rw [← Bool.not_eq_true, htouch.source, not_not]
    simp [Absorbs, hn, hsource]
  constructor
  · rintro ⟨_, hr, rfl, hsome⟩
    obtain ⟨t, ht, rfl⟩ := List.mem_map.1 hr
    exact ⟨(h.reached _).1 (List.mem_map_of_mem ht), fun habs => hsome ((hone t ht).2 habs)⟩
  · rintro ⟨hreached, habs⟩
    obtain ⟨t, ht, rfl⟩ := List.mem_map.1 ((h.reached k).2 hreached)
    exact ⟨_, List.mem_map.2 ⟨t, ht, rfl⟩, rfl, fun hnone => habs ((hone t ht).1 hnone)⟩

theorem Touched.isRecompute_iff {touched : List (Touch ExactFloat)}
    (h : Touched store edges perturbations touched) (hordered : Ordered store edges)
    (hbudget : Budgeted store) :
    (upwardClosure edges (touched.map fun t => (t, initialReason t))).map Prod.fst = touched ∧
      ∀ k, IsRecompute (upwardClosure edges (touched.map fun t => (t, initialReason t))) k ↔
        MustRecompute store edges perturbations k := by
  have hkeys : keysOf (touched.map fun t => (t, initialReason t)) = touched.map Touch.key := by
    simp [keysOf, Function.comp_def]
  have hlinked : Linked edges (touched.map Touch.key) = Feeds edges perturbations := by
    funext u v
    rw [Linked, h.reached, h.reached, Feeds]
  have hlt : ∀ {u v}, Feeds edges perturbations u v → ∃ m n, store.nodes[u]? = some m ∧
      store.nodes[v]? = some n ∧ m.seq < n.seq := by
    rintro u v ⟨⟨e, he, rfl, rfl⟩, -⟩
    exact hordered e he
  have hclosure := isRecompute_upwardClosure edges
    (touched.map fun t => (t, initialReason t)) (by rw [hkeys]; exact h.nodup)
    (by
      rw [hkeys, hlinked]
      refine h.sorted.imp fun {a b} hle hfeeds => ?_
      obtain ⟨m, n, hm, hn, hseq⟩ := hlt hfeeds
      exact absurd (hle n m hn hm) (not_le.2 hseq))
    (by
      rw [hkeys, hlinked]
      intro v hfeeds
      obtain ⟨m, n, hm, hn, hseq⟩ := hlt hfeeds
      rw [Option.some.inj (hm.symm.trans hn)] at hseq
      exact lt_irrefl _ hseq)
  refine ⟨by simpa [Function.comp_def] using hclosure.1, fun k => (hclosure.2 k).trans ?_⟩
  rw [hkeys, hlinked]
  have hbase : IsRecompute (touched.map fun t => (t, initialReason t)) = fun k =>
      frontier edges perturbations k ≠ 0 ∧ ¬ Absorbs store edges perturbations k :=
    funext fun k => propext (h.base hbudget k)
  rw [hbase]
  rfl

/-- A touched node that absorbs its perturbation has a finite bound inside a
finite slack. -/
theorem TouchOf.absorbed {n : StoredNode ExactFloat} {t : Touch ExactFloat}
    (h : TouchOf edges perturbations n t) {slack : ℚ} (hslack : n.effectiveSlack = fin slack)
    (hlt : frontier edges perturbations t.key < toENNReal n.effectiveSlack) :
    ∃ b : ℚ, t.bound = fin b ∧ frontier edges perturbations t.key = ENNReal.ofReal b ∧
      0 ≤ b ∧ b < slack := by
  have hvalue := h.value
  have hmag := h.magnitude
  have hne : Inflow.value ⟨t.bound, t.nonfinite, t.negativeSensitivity⟩ ≠ ⊤ := by
    rw [hvalue]
    exact hlt.ne_top
  unfold Inflow.value at hvalue hne
  split_ifs at hvalue hne with hflag
  · exact absurd rfl hne
  · obtain ⟨b, hb⟩ := isFinite_iff.1 ((isFinite_iff_ne_top hmag).2 hne)
    rw [hb] at hvalue hmag
    refine ⟨b, hb, hvalue.symm, hmag, ?_⟩
    rw [← hvalue, hslack] at hlt
    have hcast : (0 : ℝ) ≤ b := by exact_mod_cast (hmag : 0 ≤ b)
    exact_mod_cast (ENNReal.ofReal_lt_ofReal_iff_of_nonneg hcast).1 hlt

theorem plan_spec (hwf : WellFormed store) (hbudget : Budgeted store)
    (hplan : plan store edges perturbations = .ok p) : PlanOf store edges perturbations p := by
  unfold plan at hplan
  cases hcheck : edges.forM (checkEdge store) with
  | error error =>
    rw [hcheck] at hplan
    cases hplan
  | ok u =>
    cases hfold : perturbations.foldlM (addSource store) ∅ with
    | error error =>
      rw [hcheck, hfold] at hplan
      cases hplan
    | ok sources =>
      rw [hcheck, hfold] at hplan
      cases hplan
      have hordered := ordered_of_checkEdge hcheck
      obtain ⟨hstored, hsources⟩ := sources_ok hfold (fun _ => 0) (by simp [Represents])
      simp only [zero_add] at hsources
      have htouched := touched_spec hordered hstored hsources
      generalize ((topologicalOrder store).foldl (touchNode edges sources) (∅, [])).2 = touched
        at htouched
      obtain ⟨hfst, hrec⟩ := htouched.isRecompute_iff hordered hbudget
      generalize upwardClosure edges (touched.map fun t => (t, initialReason t)) = reasons
        at hfst hrec
      subst hfst
      have heach : ∀ r ∈ reasons, ∃ n, store.nodes[r.1.key]? = some n ∧
          TouchOf edges perturbations n r.1 ∧ r.1.hash = r.1.key := by
        intro r hr
        obtain ⟨n, hn, htouch⟩ := htouched.each r.1 (List.mem_map_of_mem hr)
        exact ⟨n, hn, htouch, htouch.hash.trans (hwf.keyed _ _ hn)⟩
      have hkeys : (reasons.map fun r => (r.1.hash, verdictOf r)).map Prod.fst =
          (reasons.map Prod.fst).map Touch.key := by
        rw [List.map_map, List.map_map]
        refine List.map_congr_left fun r hr => ?_
        obtain ⟨-, -, -, hhash⟩ := heach r hr
        exact hhash
      have hunique : ∀ r ∈ reasons, IsRecompute reasons r.1.key → r.2 ≠ none := by
        rintro r hr ⟨r', hr', hkey, hsome⟩
        have hnodup := htouched.nodup
        rw [List.map_map] at hnodup
        obtain rfl := List.inj_on_of_nodup_map hnodup hr' hr hkey
        exact hsome
      have hverdict : ∀ k v, (k, v) ∈ (reasons.map fun r => (r.1.hash, verdictOf r)) →
          ∃ r ∈ reasons, r.1.key = k ∧ verdictOf r = v := by
        intro k v hv
        obtain ⟨r, hr, heq⟩ := List.mem_map.1 hv
        obtain ⟨-, -, -, hhash⟩ := heach r hr
        obtain ⟨rfl, rfl⟩ := Prod.mk.inj heq
        exact ⟨r, hr, hhash.symm, rfl⟩
      refine ⟨hordered, ?_, ?_, fun k hk => frontier_of_absent hordered hstored hk, fun k => ?_,
        fun k bound reason hv => ?_, fun k bound left hv => ?_, rfl, rfl⟩
      · dsimp only
        rw [hkeys]
        exact htouched.nodup
      · have hsorted := htouched.sorted
        rw [← hkeys] at hsorted
        exact List.pairwise_map.1 hsorted
      · dsimp only
        rw [hkeys]
        exact htouched.reached k
      · obtain ⟨r, hr, rfl, hverdict⟩ := hverdict k _ hv
        refine (hrec _).1 ⟨r, hr, rfl, fun hnone => ?_⟩
        obtain ⟨t, reason⟩ := r
        obtain rfl : reason = none := hnone
        cases hverdict
      · obtain ⟨r, hr, rfl, hverdict⟩ := hverdict k _ hv
        obtain ⟨n, hn, htouch, -⟩ := heach r hr
        obtain ⟨t, reason⟩ := r
        cases reason with
        | some reason => cases hverdict
        | none =>
          have hskip : ¬ MustRecompute store edges perturbations t.key :=
            fun hmust => hunique _ hr ((hrec _).2 hmust) rfl
          have hreached := (htouched.reached t.key).1
            (List.mem_map_of_mem (List.mem_map_of_mem hr))
          have habsorbs : Absorbs store edges perturbations t.key := by
            by_contra habs
            exact hskip (.base ⟨hreached, habs⟩)
          obtain ⟨-, n', hn', hlt⟩ := habsorbs
          obtain rfl : n = n' := Option.some.inj (hn.symm.trans hn')
          obtain ⟨slack, burned, hb⟩ := hbudget t.key n hn
          obtain ⟨b, hbound, hfrontier, hnonneg, hfits⟩ := htouch.absorbed hb.effectiveSlack hlt
          obtain ⟨rfl, rfl⟩ := Verdict.skip.inj hverdict
          refine ⟨hskip, n, b, _, hn, hb.effectiveSlack, hbound, ?_, hfrontier, hnonneg, hfits⟩
          rw [htouch.slack, hb.effectiveSlack, hbound, fin_sub_fin]

end Plan

end FrankenSim.Recompute
