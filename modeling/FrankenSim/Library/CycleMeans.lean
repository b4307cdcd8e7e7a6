import Mathlib.Algebra.Order.Field.Basic
import Mathlib.Algebra.Order.Monoid.Unbundled.WithTop
import Mathlib.Data.Finset.Card
import Mathlib.Data.Finset.Max
import Mathlib.Data.Set.Finite.List
import Mathlib.Tactic

/-!
# Karp's theorem on cycle means

Weighted walks over finitely many nodes. Where no cycle has a positive weight and one has
weight zero, some node is reached best by walks with as many edges as there are nodes, and
no node is reached better by these than by all shorter walks. Shifting all weights by the
largest mean of a cycle gives Karp's formula for it.
-/
namespace FrankenSim.Library

variable {V K : Type*}

section Weights

variable [AddCommGroup K] (w : V → V → WithBot K)

/-- The weight of a walk, `⊥` where an edge is missing. -/
def walkWeight : List V → WithBot K
  | [] => 0
  | [_] => 0
  | u :: v :: p => w u v + walkWeight (v :: p)

/-- The weight of the closed walk along the nodes of a list. -/
def cycleWeight : List V → WithBot K
  | [] => ⊥
  | v :: q => walkWeight w (v :: q ++ [v])

/-- Different nodes along edges, and an edge back from the last one. -/
structure IsCycle (c : List V) : Prop where
  nodup : c.Nodup
  weight_ne : cycleWeight w c ≠ ⊥

variable {w}

theorem walkWeight_append (p q : List V) (v : V) :
    walkWeight w (p ++ v :: q) = walkWeight w (p ++ [v]) + walkWeight w (v :: q) := by
  induction p with
  | nil => simp [walkWeight]
  | cons u p ih =>
    cases p with
    | nil => simp [walkWeight]
    | cons t p =>
      change w u t + walkWeight w (t :: p ++ v :: q) = w u t + walkWeight w (t :: p ++ [v]) + _
      rw [ih, add_assoc]

theorem walkWeight_concat (p : List V) (u v : V) :
    walkWeight w (p ++ [u] ++ [v]) = walkWeight w (p ++ [u]) + w u v := by
  rw [List.append_assoc, List.singleton_append, walkWeight_append]
  simp [walkWeight]

/-- A walk that comes back to a node is a walk without the way round, and a closed walk. -/
theorem walkWeight_detour (a b c : List V) (u : V) :
    walkWeight w (a ++ u :: b ++ u :: c) =
      walkWeight w (a ++ u :: c) + cycleWeight w (u :: b) := by
  rw [List.append_assoc, List.cons_append, walkWeight_append, walkWeight_append a c]
  rw [← List.cons_append, walkWeight_append (u :: b) c, cycleWeight]
  rw [add_assoc, add_comm (walkWeight w (u :: b ++ [u]))]

theorem cycleWeight_detour (a b c : List V) (u : V) :
    cycleWeight w (a ++ u :: b ++ u :: c) =
      cycleWeight w (a ++ u :: c) + cycleWeight w (u :: b) := by
  cases a with
  | nil =>
    have hdetour := walkWeight_detour (w := w) [] b (c ++ [u]) u
    simpa [cycleWeight] using hdetour
  | cons v a =>
    have hdetour := walkWeight_detour (w := w) (v :: a) b (c ++ [v]) u
    simpa [cycleWeight] using hdetour

theorem cycleWeight_rotated (a b : List V) : cycleWeight w (a ++ b) = cycleWeight w (b ++ a) := by
  cases a with
  | nil => rw [List.append_nil, List.nil_append]
  | cons u a =>
    cases b with
    | nil => rw [List.append_nil, List.nil_append]
    | cons v b =>
      have hab := walkWeight_append (w := w) (u :: a) (b ++ [u]) v
      have hba := walkWeight_append (w := w) (v :: b) (a ++ [v]) u
      calc cycleWeight w (u :: a ++ v :: b)
          = walkWeight w (u :: a ++ [v]) + walkWeight w (v :: b ++ [u]) := by
            simpa [cycleWeight] using hab
        _ = cycleWeight w (v :: b ++ u :: a) := by
            rw [add_comm]
            simpa [cycleWeight] using hba.symm

theorem IsCycle.rotated {a b : List V} (h : IsCycle w (a ++ b)) : IsCycle w (b ++ a) := by
  refine ⟨List.nodup_append_comm.1 h.nodup, ?_⟩
  rw [← cycleWeight_rotated]
  exact h.weight_ne

/-- Going round a cycle without weight as often as necessary: the walk so far, and the way back
to the start of the cycle. -/
theorem exists_tour {s : V} {q p : List V} (hcycle : cycleWeight w (s :: q) = 0) (steps : ℕ) :
    ∃ p' v r, p'.length = p.length + steps ∧
      walkWeight w (p' ++ v :: r ++ [s]) = walkWeight w (p ++ [s]) := by
  induction steps with
  | zero =>
    refine ⟨p, s, q, rfl, ?_⟩
    rw [List.append_assoc, List.cons_append, walkWeight_append]
    change walkWeight w (p ++ [s]) + cycleWeight w (s :: q) = _
    rw [hcycle, add_zero]
  | succ steps ih =>
    obtain ⟨p', v, r, hlength, heq⟩ := ih
    cases r with
    | nil =>
      refine ⟨p' ++ [v], s, q, by simp [hlength, add_assoc], ?_⟩
      rw [List.append_assoc _ (s :: q), List.cons_append, walkWeight_append, heq]
      change _ + cycleWeight w (s :: q) = _
      rw [hcycle, add_zero]
    | cons t r =>
      exact ⟨p' ++ [v], t, r, by simp [hlength, add_assoc], by simpa using heq⟩

end Weights

theorem exists_repeated {l : List V} (h : ¬ l.Nodup) : ∃ a u b c, l = a ++ u :: b ++ u :: c := by
  rw [List.nodup_iff_sublist] at h
  push Not at h
  obtain ⟨u, hsub⟩ := h
  obtain ⟨first, second, rfl, hfirst, hsecond⟩ := List.cons_sublist_iff.1 hsub
  obtain ⟨a, b, rfl⟩ := List.append_of_mem hfirst
  obtain ⟨b', c, rfl⟩ := List.append_of_mem (List.singleton_sublist.1 hsecond)
  exact ⟨a, u, b ++ b', c, by simp⟩

/-- A closed walk contains a cycle. -/
theorem exists_isCycle [AddCommGroup K] {w : V → V → WithBot K} {c : List V}
    (h : cycleWeight w c ≠ ⊥) : ∃ c', IsCycle w c' := by
  induction hlength : c.length using Nat.strong_induction_on generalizing c with
  | _ length ih =>
    subst hlength
    by_cases hnodup : c.Nodup
    · exact ⟨c, hnodup, h⟩
    · obtain ⟨a, u, b, c, rfl⟩ := exists_repeated hnodup
      rw [cycleWeight_detour] at h
      exact ih (u :: b).length (by simp; omega) (WithBot.add_ne_bot.1 h).2 rfl

section Shortening

variable [AddCommGroup K] [LinearOrder K] [IsOrderedAddMonoid K] {w : V → V → WithBot K}

/-- Where simple cycles have no positive weight, closed walks have none. -/
theorem cycleWeight_nonpos (h : ∀ c, IsCycle w c → cycleWeight w c ≤ 0) (c : List V) :
    cycleWeight w c ≤ 0 := by
  induction hlength : c.length using Nat.strong_induction_on generalizing c with
  | _ length ih =>
    subst hlength
    by_cases hnodup : c.Nodup
    · by_cases hbot : cycleWeight w c = ⊥
      · rw [hbot]
        exact bot_le
      · exact h c ⟨hnodup, hbot⟩
    · obtain ⟨a, u, b, c, rfl⟩ := exists_repeated hnodup
      have hround := ih (u :: b).length (by simp; omega) (u :: b) rfl
      have hrest := ih (a ++ u :: c).length (by simp) (a ++ u :: c) rfl
      rw [cycleWeight_detour]
      exact add_nonpos hrest hround

end Shortening

/-- The best weights of walks to every node, by their numbers of edges. -/
structure BestWalks [AddCommGroup K] [LinearOrder K] (w : V → V → WithBot K) (nodes : Finset V)
    (d : ℕ → V → WithBot K) : Prop where
  support : ∀ u v, w u v ≠ ⊥ → u ∈ nodes ∧ v ∈ nodes
  start : ∀ v ∈ nodes, d 0 v = 0
  step_le : ∀ k u v, d k u + w u v ≤ d (k + 1) v
  step_mem : ∀ k v, d (k + 1) v = ⊥ ∨ ∃ u, d (k + 1) v = d k u + w u v

namespace BestWalks

variable [AddCommGroup K] [LinearOrder K] {w : V → V → WithBot K} {nodes : Finset V}
  {d : ℕ → V → WithBot K} {v : V} {p : List V}

theorem mem_nodes (h : BestWalks w nodes d) (hv : v ∈ nodes) (hp : walkWeight w (p ++ [v]) ≠ ⊥) :
    ∀ u ∈ p ++ [v], u ∈ nodes := by
  induction p using List.reverseRecOn generalizing v with
  | nil => simpa using hv
  | append_singleton p t ih =>
    rw [walkWeight_concat] at hp
    obtain ⟨hp, hedge⟩ := WithBot.add_ne_bot.1 hp
    intro u hu
    rcases List.mem_append.1 hu with hu | hu
    · exact ih (h.support t v hedge).1 hp u hu
    · rwa [List.mem_singleton.1 hu]

theorem exists_walk (h : BestWalks w nodes d) {k : ℕ} (hv : v ∈ nodes) (hd : d k v ≠ ⊥) :
    ∃ p : List V, p.length = k ∧ walkWeight w (p ++ [v]) = d k v := by
  induction k generalizing v with
  | zero => exact ⟨[], rfl, (h.start v hv).symm⟩
  | succ k ih =>
    rcases h.step_mem k v with hbot | ⟨u, hstep⟩
    · exact absurd hbot hd
    · rw [hstep] at hd ⊢
      obtain ⟨hu, hedge⟩ := WithBot.add_ne_bot.1 hd
      obtain ⟨p, hlength, hp⟩ := ih (h.support u v hedge).1 hu
      refine ⟨p ++ [u], by simp [hlength], ?_⟩
      rw [walkWeight_concat, hp]

theorem cycle_mem (h : BestWalks w nodes d) {c : List V} (hc : cycleWeight w c ≠ ⊥) :
    ∀ v ∈ c, v ∈ nodes := by
  cases c with
  | nil => simp
  | cons s q =>
    rcases List.eq_nil_or_concat (s :: q) with hnil | ⟨p, u, hlast⟩
    · cases hnil
    · rw [List.concat_eq_append] at hlast
      have hback : w u s ≠ ⊥ := by
        rw [cycleWeight, hlast, walkWeight_concat] at hc
        exact (WithBot.add_ne_bot.1 hc).2
      intro v hv
      exact h.mem_nodes (h.support u s hback).2 hc v (List.mem_append_left _ hv)

/-- As many edges as nodes come back to some node. -/
theorem exists_detour (h : BestWalks w nodes d) (hv : v ∈ nodes)
    (hp : walkWeight w (p ++ [v]) ≠ ⊥) (hlength : nodes.card ≤ p.length) :
    ∃ p' c, p'.length < p.length ∧
      walkWeight w (p ++ [v]) = walkWeight w (p' ++ [v]) + cycleWeight w c := by
  have hrepeated : ¬ (p ++ [v]).Nodup := by
    intro hnodup
    have hsub : p ++ [v] ⊆ nodes.toList := fun u hu => Finset.mem_toList.2 (h.mem_nodes hv hp u hu)
    have hcard := (List.subperm_of_subset hnodup hsub).length_le
    rw [Finset.length_toList, List.length_append, List.length_singleton] at hcard
    omega
  obtain ⟨a, u, b, c, heq⟩ := exists_repeated hrepeated
  rcases List.eq_nil_or_concat c with rfl | ⟨c, t, rfl⟩
  · obtain ⟨rfl, hlast⟩ := List.append_inj' heq rfl
    obtain rfl := List.singleton_inj.1 hlast
    refine ⟨a, v :: b, by simp, ?_⟩
    exact walkWeight_detour a b [] v
  · rw [List.concat_eq_append] at heq
    have hsplit : p ++ [v] = (a ++ u :: b ++ u :: c) ++ [t] := by simpa using heq
    obtain ⟨rfl, hlast⟩ := List.append_inj' hsplit rfl
    obtain rfl := List.singleton_inj.1 hlast
    refine ⟨a ++ u :: c, u :: b, by simp, ?_⟩
    have hdetour := walkWeight_detour (w := w) a b (c ++ [v]) u
    simpa using hdetour

variable [IsOrderedAddMonoid K]

theorem walkWeight_le (h : BestWalks w nodes d) (hv : v ∈ nodes) (p : List V) :
    walkWeight w (p ++ [v]) ≤ d p.length v := by
  induction p using List.reverseRecOn generalizing v with
  | nil => exact (h.start v hv).ge
  | append_singleton p u ih =>
    rw [walkWeight_concat, List.length_append, List.length_singleton]
    by_cases hedge : w u v = ⊥
    · rw [hedge, WithBot.add_bot]
      exact bot_le
    · calc walkWeight w (p ++ [u]) + w u v ≤ d p.length u + w u v :=
            add_le_add_left (ih (h.support u v hedge).1) _
        _ ≤ d (p.length + 1) v := h.step_le _ u v

/-- Where no closed walk has a positive weight, walks with fewer edges than there are nodes are
the best ones. -/
theorem exists_short (h : BestWalks w nodes d) (hnonpos : ∀ c, cycleWeight w c ≤ 0)
    (hv : v ∈ nodes) (p : List V) : ∃ k < nodes.card, walkWeight w (p ++ [v]) ≤ d k v := by
  induction hlength : p.length using Nat.strong_induction_on generalizing p with
  | _ length ih =>
    subst hlength
    by_cases hlt : p.length < nodes.card
    · exact ⟨p.length, hlt, h.walkWeight_le hv p⟩
    · by_cases hbot : walkWeight w (p ++ [v]) = ⊥
      · exact ⟨0, Finset.card_pos.2 ⟨v, hv⟩, by rw [hbot]; exact bot_le⟩
      · obtain ⟨p', c, hshort, hsplit⟩ := h.exists_detour hv hbot (not_lt.1 hlt)
        obtain ⟨k, hk, hle⟩ := ih p'.length hshort p' rfl
        refine ⟨k, hk, le_trans ?_ hle⟩
        rw [hsplit]
        exact add_le_of_nonpos_right (hnonpos c)

/-- Karp's theorem for the largest mean `0`. -/
theorem karp_zero (h : BestWalks w nodes d) (hnonpos : ∀ c, cycleWeight w c ≤ 0) :
    (∀ v ∈ nodes, ∃ k < nodes.card, d nodes.card v ≤ d k v) ∧
      ((∃ c, cycleWeight w c = 0) → ∃ v ∈ nodes, d nodes.card v ≠ ⊥ ∧
        ∀ k, d k v ≤ d nodes.card v) := by
  constructor
  · intro v hv
    by_cases hbot : d nodes.card v = ⊥
    · exact ⟨0, Finset.card_pos.2 ⟨v, hv⟩, by rw [hbot]; exact bot_le⟩
    · obtain ⟨p, -, hp⟩ := h.exists_walk hv hbot
      rw [← hp]
      exact h.exists_short hnonpos hv p
  · rintro ⟨c, hc⟩
    cases c with
    | nil => exact absurd hc (WithBot.bot_ne_coe)
    | cons s q =>
      have hs : s ∈ nodes := by
        have hfinite : cycleWeight w (s :: q) ≠ ⊥ := hc ▸ WithBot.coe_ne_bot
        exact h.cycle_mem hfinite s List.mem_cons_self
      -- the best walk to the start of the cycle
      obtain ⟨best, hbest, hmax⟩ := (Finset.range nodes.card).exists_max_image (fun k => d k s)
        ⟨0, Finset.mem_range.2 (Finset.card_pos.2 ⟨s, hs⟩)⟩
      rw [Finset.mem_range] at hbest
      have hne : d best s ≠ ⊥ := by
        intro hbot
        have hle := hmax 0 (Finset.mem_range.2 (by omega))
        rw [hbot, h.start s hs, le_bot_iff] at hle
        exact WithBot.coe_ne_bot hle
      obtain ⟨p, hlength, hp⟩ := h.exists_walk hs hne
      obtain ⟨p', v, r, hlength', htour⟩ := exists_tour (p := p) hc (nodes.card - best)
      have hcard : p'.length = nodes.card := by omega
      have hsplit : ∀ p, walkWeight w (p ++ v :: r ++ [s]) =
          walkWeight w (p ++ [v]) + walkWeight w (v :: r ++ [s]) := by
        intro p
        rw [List.append_assoc, List.cons_append, walkWeight_append]
      rw [hp, hsplit] at htour
      have hfinite : walkWeight w (p' ++ [v]) ≠ ⊥ ∧ walkWeight w (v :: r ++ [s]) ≠ ⊥ := by
        rw [← htour] at hne
        exact WithBot.add_ne_bot.1 hne
      have hv : v ∈ nodes := by
        have hmem := h.mem_nodes (p := v :: r) hs hfinite.2
        exact hmem v (by simp)
      have hle := h.walkWeight_le hv p'
      rw [hcard] at hle
      refine ⟨v, hv, ?_, fun k => ?_⟩
      · exact fun hbot => hfinite.1 (le_bot_iff.1 (hbot ▸ hle))
      · apply le_trans _ hle
        by_cases hbot : d k v = ⊥
        · rw [hbot]
          exact bot_le
        · obtain ⟨p₁, -, hp₁⟩ := h.exists_walk hv hbot
          obtain ⟨k', hk', hshort⟩ := h.exists_short hnonpos hs (p₁ ++ v :: r)
          have hall := hshort.trans (hmax k' (Finset.mem_range.2 hk'))
          rw [hsplit, hp₁, ← htour] at hall
          exact (WithBot.add_le_add_iff_right hfinite.2).1 hall

end BestWalks

section Means

variable [Field K] {w : V → V → WithBot K}

/-- The weight of a cycle by its number of edges. -/
def cycleMean (w : V → V → WithBot K) (c : List V) : K := (cycleWeight w c).unbotD 0 / c.length

theorem cycleMean_rotated (a b : List V) : cycleMean w (a ++ b) = cycleMean w (b ++ a) := by
  rw [cycleMean, cycleMean, cycleWeight_rotated, List.length_append, List.length_append, add_comm]

/-- All weights less by the same amount. -/
def shifted (w : V → V → WithBot K) (μ : K) (u v : V) : WithBot K := w u v + ↑(-μ)

theorem walkWeight_shifted (μ : K) (p : List V) (v : V) :
    walkWeight (shifted w μ) (p ++ [v]) = walkWeight w (p ++ [v]) + ↑(-(p.length * μ)) := by
  induction p using List.reverseRecOn generalizing v with
  | nil => simp [walkWeight]
  | append_singleton p u ih =>
    have hsum : -(↑(p ++ [u]).length * μ) = -(p.length * μ) + -μ := by
      push_cast [List.length_append, List.length_singleton]
      ring
    rw [walkWeight_concat, walkWeight_concat, ih, shifted, hsum, WithBot.coe_add]
    rw [add_add_add_comm]

theorem cycleWeight_shifted (μ : K) (c : List V) :
    cycleWeight (shifted w μ) c = cycleWeight w c + ↑(-(c.length * μ)) := by
  cases c with
  | nil => rfl
  | cons s q => exact walkWeight_shifted μ (s :: q) s

variable [LinearOrder K] [IsStrictOrderedRing K]

theorem cycleMean_le_iff {μ : K} {c : List V} (h : cycleWeight w c ≠ ⊥) :
    cycleMean w c ≤ μ ↔ cycleWeight (shifted w μ) c ≤ 0 := by
  obtain ⟨x, hx⟩ := WithBot.ne_bot_iff_exists.1 h
  have hlength : 0 < c.length := by
    apply List.length_pos_iff.2
    rintro rfl
    exact h rfl
  have hpos : (0 : K) < c.length := Nat.cast_pos.2 hlength
  rw [cycleMean, cycleWeight_shifted, ← hx, WithBot.unbotD_coe, ← WithBot.coe_add, ← WithBot.coe_zero,
    WithBot.coe_le_coe, div_le_iff₀ hpos, ← sub_eq_add_neg, sub_nonpos, mul_comm]

theorem cycleWeight_shifted_mean {c : List V} (h : cycleWeight w c ≠ ⊥) :
    cycleWeight (shifted w (cycleMean w c)) c = 0 := by
  obtain ⟨x, hx⟩ := WithBot.ne_bot_iff_exists.1 h
  have hne : (c.length : K) ≠ 0 := by
    rw [Nat.cast_ne_zero]
    intro hzero
    rw [List.eq_nil_of_length_eq_zero hzero] at h
    exact h rfl
  rw [cycleWeight_shifted, cycleMean, ← hx, WithBot.unbotD_coe, ← WithBot.coe_add, ← WithBot.coe_zero,
    WithBot.coe_inj, mul_div_cancel₀ x hne, add_neg_cancel]

omit [LinearOrder K] [IsStrictOrderedRing K] in
theorem shifted_ne_bot {μ : K} {c : List V} :
    cycleWeight (shifted w μ) c ≠ ⊥ ↔ cycleWeight w c ≠ ⊥ := by
  rw [cycleWeight_shifted, WithBot.add_ne_bot]
  exact and_iff_left WithBot.coe_ne_bot

namespace BestWalks

variable {nodes : Finset V} {d : ℕ → V → WithBot K}

theorem shifted (h : BestWalks w nodes d) (μ : K) :
    BestWalks (Library.shifted w μ) nodes fun k v => d k v + ↑(-(k * μ)) := by
  have hstep : ∀ k u v, d k u + ↑(-(k * μ)) + Library.shifted w μ u v =
      d k u + w u v + ↑(-((k + 1 : ℕ) * μ)) := by
    intro k u v
    have hsum : -((k + 1 : ℕ) * μ) = -(k * μ) + -μ := by
      push_cast
      ring
    rw [Library.shifted, hsum, WithBot.coe_add, add_add_add_comm]
  constructor
  · intro u v hedge
    exact h.support u v (WithBot.add_ne_bot.1 hedge).1
  · intro v hv
    simp [h.start v hv]
  · intro k u v
    rw [hstep]
    exact add_le_add_left (h.step_le k u v) _
  · intro k v
    rcases h.step_mem k v with hbot | ⟨u, heq⟩
    · left
      rw [hbot, WithBot.bot_add]
    · exact Or.inr ⟨u, by rw [hstep, heq]⟩

omit [IsStrictOrderedRing K] in
theorem finite_cycles (h : BestWalks w nodes d) : {c | IsCycle w c}.Finite := by
  have hlists : {c : List nodes | c.length ≤ nodes.card}.Finite := List.finite_length_le _ _
  apply (hlists.image (List.map Subtype.val)).subset
  intro c hc
  have hmem := h.cycle_mem hc.weight_ne
  refine ⟨c.attach.map fun v => ⟨v.1, hmem v.1 v.2⟩, ?_, by simp⟩
  have hsub : c ⊆ nodes.toList := fun u hu => Finset.mem_toList.2 (hmem u hu)
  have hle := (List.subperm_of_subset hc.nodup hsub).length_le
  rw [Finset.length_toList] at hle
  simpa using hle

omit [IsStrictOrderedRing K] in
/-- Some cycle has the largest mean. -/
theorem exists_max (h : BestWalks w nodes d) (hcycle : ∃ c, IsCycle w c) :
    ∃ c, IsCycle w c ∧ ∀ c', IsCycle w c' → cycleMean w c' ≤ cycleMean w c := by
  obtain ⟨c, hc, hmax⟩ := Set.exists_max_image _ (cycleMean w) h.finite_cycles hcycle
  exact ⟨c, hc, hmax⟩

/-- Closed walks have no larger mean than cycles. -/
theorem mean_le (μ : K) (hmax : ∀ c, IsCycle w c → cycleMean w c ≤ μ) (c : List V) :
    cycleWeight (Library.shifted w μ) c ≤ 0 := by
  apply cycleWeight_nonpos
  intro c hc
  have hfinite := shifted_ne_bot.1 hc.weight_ne
  exact (cycleMean_le_iff hfinite).1 (hmax c ⟨hc.nodup, hfinite⟩)

/-- Karp's theorem. -/
theorem karp (h : BestWalks w nodes d) {c : List V} (hc : IsCycle w c)
    (hmax : ∀ c', IsCycle w c' → cycleMean w c' ≤ cycleMean w c) :
    (∀ v ∈ nodes, ∀ x : K, d nodes.card v = x → ∃ k < nodes.card, ∃ y : K, d k v = y ∧
      (x - y) / (nodes.card - k : ℕ) ≤ cycleMean w c) ∧
    ∃ v ∈ nodes, ∃ x : K, d nodes.card v = x ∧ ∀ k < nodes.card, ∀ y : K, d k v = y →
      cycleMean w c ≤ (x - y) / (nodes.card - k : ℕ) := by
  have hshifted := h.shifted (cycleMean w c)
  have hnonpos := mean_le (cycleMean w c) hmax
  obtain ⟨hbelow, habove⟩ := hshifted.karp_zero hnonpos
  -- both differences divided by the number of edges between them
  have hdiv : ∀ k < nodes.card, ∀ x y : K,
      ((x : WithBot K) + ↑(-(nodes.card * cycleMean w c)) ≤ y + ↑(-(k * cycleMean w c)) ↔
        (x - y) / (nodes.card - k : ℕ) ≤ cycleMean w c) ∧
      ((y : WithBot K) + ↑(-(k * cycleMean w c)) ≤ x + ↑(-(nodes.card * cycleMean w c)) ↔
        cycleMean w c ≤ (x - y) / (nodes.card - k : ℕ)) := by
    intro k hk x y
    have hpos : (0 : K) < (nodes.card - k : ℕ) := Nat.cast_pos.2 (by omega)
    rw [div_le_iff₀ hpos, le_div_iff₀ hpos, Nat.cast_sub hk.le, ← WithBot.coe_add, ← WithBot.coe_add,
      WithBot.coe_le_coe, WithBot.coe_le_coe]
    constructor
    · constructor
      · intro hle
        linarith
      · intro hle
        linarith
    · constructor
      · intro hle
        linarith
      · intro hle
        linarith
  constructor
  · intro v hv x hx
    obtain ⟨k, hk, hle⟩ := hbelow v hv
    rw [hx] at hle
    have hne : d k v ≠ ⊥ := by
      intro hbot
      rw [hbot, WithBot.bot_add, le_bot_iff, ← WithBot.coe_add] at hle
      exact WithBot.coe_ne_bot hle
    obtain ⟨y, hy⟩ := WithBot.ne_bot_iff_exists.1 hne
    rw [← hy] at hle
    exact ⟨k, hk, y, hy.symm, (hdiv k hk x y).1.1 hle⟩
  · obtain ⟨v, hv, hne, hall⟩ := habove ⟨c, cycleWeight_shifted_mean hc.weight_ne⟩
    obtain ⟨x, hx⟩ := WithBot.ne_bot_iff_exists.1 (WithBot.add_ne_bot.1 hne).1
    refine ⟨v, hv, x, hx.symm, fun k hk y hy => ?_⟩
    have hle := hall k
    rw [hy, ← hx] at hle
    exact (hdiv k hk x y).2.1 hle

omit [IsStrictOrderedRing K] in
/-- Without a cycle no walk has as many edges as there are nodes. -/
theorem eq_bot_of_acyclic (h : BestWalks w nodes d) (hnone : ∀ c, ¬ IsCycle w c) {v : V}
    (hv : v ∈ nodes) : d nodes.card v = ⊥ := by
  by_contra hne
  obtain ⟨p, hlength, hp⟩ := h.exists_walk hv hne
  rw [← hp] at hne
  obtain ⟨p', c, -, hsplit⟩ := h.exists_detour hv hne hlength.ge
  rw [hsplit] at hne
  obtain ⟨c, hc⟩ := exists_isCycle (WithBot.add_ne_bot.1 hne).2
  exact hnone c hc

end BestWalks

end Means

end FrankenSim.Library
