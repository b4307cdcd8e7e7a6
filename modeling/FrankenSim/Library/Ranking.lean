import Mathlib.Order.Basic
import Mathlib.Data.List.Basic
import Mathlib.Tactic

/-!
# The least score and the next

Candidates come in ascending order. The first candidate of least score wins; the runner-up is
the first candidate of the least score above a given one.
-/
namespace FrankenSim.Library

variable {κ α : Type*} [LinearOrder κ] [LinearOrder α] {f : κ → α} {seen : List κ} {m : α}
  {c r w : κ}

/-- The first candidate of least score. -/
structure IsFirstLeast (f : κ → α) (seen : List κ) (w : κ) : Prop where
  mem : w ∈ seen
  le : ∀ u ∈ seen, f w ≤ f u
  first : ∀ u ∈ seen, f u = f w → w ≤ u

/-- The first candidate of the least score above `m`, if any score is above. -/
def IsRunnerUp (f : κ → α) (seen : List κ) (m : α) : Option κ → Prop
  | none => ∀ u ∈ seen, f u ≤ m
  | some r => r ∈ seen ∧ m < f r ∧ ∀ u ∈ seen, m < f u → f r ≤ f u ∧ (f u = f r → r ≤ u)

omit [LinearOrder κ] in
theorem forall_mem_concat {P : κ → Prop} :
    (∀ u ∈ seen ++ [c], P u) ↔ (∀ u ∈ seen, P u) ∧ P c := by
  simp [List.mem_append, or_imp, forall_and]

namespace IsFirstLeast

theorem singleton (f : κ → α) (c : κ) : IsFirstLeast f [c] c := by
  constructor
  · exact List.mem_singleton_self c
  · intro u hu
    rw [List.mem_singleton.1 hu]
  · intro u hu _
    rw [List.mem_singleton.1 hu]

/-- A lower score wins. -/
theorem concat_lt (h : IsFirstLeast f seen w) (hlt : f c < f w) :
    IsFirstLeast f (seen ++ [c]) c := by
  constructor
  · simp
  · rw [forall_mem_concat]
    exact ⟨fun u hu => hlt.le.trans (h.le u hu), le_refl _⟩
  · rw [forall_mem_concat]
    refine ⟨fun u hu heq => ?_, fun _ => le_refl _⟩
    exact absurd heq (hlt.trans_le (h.le u hu)).ne'

/-- A score that is not lower leaves the winner. -/
theorem concat_ge (h : IsFirstLeast f seen w) (hbelow : ∀ u ∈ seen, u < c) (hge : f w ≤ f c) :
    IsFirstLeast f (seen ++ [c]) w := by
  constructor
  · exact List.mem_append_left _ h.mem
  · rw [forall_mem_concat]
    exact ⟨h.le, hge⟩
  · rw [forall_mem_concat]
    exact ⟨h.first, fun _ => (hbelow w h.mem).le⟩

theorem unique {w' : κ} (h : IsFirstLeast f seen w) (h' : IsFirstLeast f seen w') : w = w' := by
  have hscore : f w = f w' := le_antisymm (h.le w' h'.mem) (h'.le w h.mem)
  exact le_antisymm (h.first w' h'.mem hscore.symm) (h'.first w h.mem hscore)

/-- The winner is the first of the candidates with its score. -/
theorem head?_filter (h : IsFirstLeast f seen w) (hsorted : seen.Pairwise (· < ·)) :
    (seen.filter fun u => f u = f w).head? = some w := by
  cases hfilter : seen.filter fun u => f u = f w with
  | nil =>
    have hw : w ∈ seen.filter fun u => f u = f w := List.mem_filter.2 ⟨h.mem, by simp⟩
    rw [hfilter] at hw
    cases hw
  | cons v rest =>
    have hv : v ∈ seen.filter fun u => f u = f w := by
      rw [hfilter]
      exact List.mem_cons_self
    obtain ⟨hseen, hscore⟩ := List.mem_filter.1 hv
    have hle : w ≤ v := h.first v hseen (by simpa using hscore)
    have hw : w ∈ v :: rest := by
      rw [← hfilter]
      exact List.mem_filter.2 ⟨h.mem, by simp⟩
    have hpairwise : (v :: rest).Pairwise (· < ·) := by
      rw [← hfilter]
      exact hsorted.filter _
    obtain hwv | hrest := List.mem_cons.1 hw
    · rw [hwv]
      rfl
    · exact absurd ((List.pairwise_cons.1 hpairwise).1 w hrest) (not_lt.2 hle)

/-- The first of the candidates with a score that is nowhere lower. -/
theorem of_head?_filter (hsorted : seen.Pairwise (· < ·)) (hle : ∀ u ∈ seen, m ≤ f u)
    (hhead : (seen.filter fun u => f u = m).head? = some w) :
    IsFirstLeast f seen w ∧ f w = m := by
  cases hfilter : seen.filter fun u => f u = m with
  | nil =>
    rw [hfilter] at hhead
    cases hhead
  | cons v rest =>
    rw [hfilter, List.head?_cons, Option.some.injEq] at hhead
    subst hhead
    have hv : v ∈ seen.filter fun u => f u = m := by
      rw [hfilter]
      exact List.mem_cons_self
    obtain ⟨hseen, hscore⟩ := List.mem_filter.1 hv
    have hscore : f v = m := by simpa using hscore
    have hpairwise : (v :: rest).Pairwise (· < ·) := by
      rw [← hfilter]
      exact hsorted.filter _
    refine ⟨⟨hseen, fun u hu => hscore.le.trans (hle u hu), ?_⟩, hscore⟩
    intro u hu heq
    have hu : u ∈ v :: rest := by
      rw [← hfilter]
      exact List.mem_filter.2 ⟨hu, by simp [heq, hscore]⟩
    obtain rfl | hrest := List.mem_cons.1 hu
    · exact le_refl _
    · exact ((List.pairwise_cons.1 hpairwise).1 u hrest).le

end IsFirstLeast

namespace IsRunnerUp

/-- A score up to `m` leaves the runner-up. -/
theorem concat_le {runner : Option κ} (h : IsRunnerUp f seen m runner) (hle : f c ≤ m) :
    IsRunnerUp f (seen ++ [c]) m runner := by
  cases runner with
  | none =>
    change ∀ u ∈ seen ++ [c], f u ≤ m
    rw [forall_mem_concat]
    exact ⟨h, hle⟩
  | some r =>
    obtain ⟨hmem, habove, hleast⟩ := h
    refine ⟨List.mem_append_left _ hmem, habove, ?_⟩
    rw [forall_mem_concat]
    exact ⟨hleast, fun hc => absurd hc hle.not_gt⟩

theorem concat_first (h : IsRunnerUp f seen m none) (hlt : m < f c) :
    IsRunnerUp f (seen ++ [c]) m (some c) := by
  refine ⟨by simp, hlt, ?_⟩
  rw [forall_mem_concat]
  exact ⟨fun u hu hmu => absurd hmu (h u hu).not_gt, fun _ => ⟨le_refl _, fun _ => le_refl _⟩⟩

theorem concat_lower (h : IsRunnerUp f seen m (some r)) (hlt : m < f c) (hlower : f c < f r) :
    IsRunnerUp f (seen ++ [c]) m (some c) := by
  refine ⟨by simp, hlt, ?_⟩
  rw [forall_mem_concat]
  refine ⟨fun u hu hmu => ?_, fun _ => ⟨le_refl _, fun _ => le_refl _⟩⟩
  have hcu := hlower.trans_le (h.2.2 u hu hmu).1
  exact ⟨hcu.le, fun heq => absurd heq hcu.ne'⟩

theorem concat_higher (h : IsRunnerUp f seen m (some r)) (hbelow : ∀ u ∈ seen, u < c)
    (hhigher : f r ≤ f c) : IsRunnerUp f (seen ++ [c]) m (some r) := by
  obtain ⟨hmem, habove, hleast⟩ := h
  refine ⟨List.mem_append_left _ hmem, habove, ?_⟩
  rw [forall_mem_concat]
  exact ⟨hleast, fun _ => ⟨hhigher, fun _ => (hbelow r hmem).le⟩⟩

/-- A winner that is displaced becomes the runner-up. -/
theorem displaced (h : IsFirstLeast f seen w) (hlt : f c < f w) :
    IsRunnerUp f (seen ++ [c]) (f c) (some w) := by
  refine ⟨List.mem_append_left _ h.mem, hlt, ?_⟩
  rw [forall_mem_concat]
  exact ⟨fun u hu _ => ⟨h.le u hu, h.first u hu⟩, fun hc => absurd hc (lt_irrefl _)⟩

theorem unique {runner runner' : Option κ} (h : IsRunnerUp f seen m runner)
    (h' : IsRunnerUp f seen m runner') : runner = runner' := by
  cases runner with
  | none =>
    cases runner' with
    | none => rfl
    | some r' => exact absurd h'.2.1 (h r' h'.1).not_gt
  | some r =>
    cases runner' with
    | none => exact absurd h.2.1 (h' r h.1).not_gt
    | some r' =>
      obtain ⟨hle, hfirst⟩ := h.2.2 r' h'.1 h'.2.1
      obtain ⟨hle', hfirst'⟩ := h'.2.2 r h.1 h.2.1
      have hscore := le_antisymm hle hle'
      rw [le_antisymm (hfirst hscore.symm) (hfirst' hscore)]

end IsRunnerUp

end FrankenSim.Library
