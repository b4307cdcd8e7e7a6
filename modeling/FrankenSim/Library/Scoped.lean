import Mathlib.Data.List.Basic
import Mathlib.Data.PNat.Defs

/-!
# Scoped workers

Workers started together and joined in the order in which they were started.
Whatever order they finish in, the joined results are those of running the work
in the order of the handles.
-/
namespace FrankenSim.Library

/-- The order in which the workers of a scope finish. -/
structure Completion where
  order : List ℕ → List ℕ
  perm : ∀ handles, (order handles).Perm handles

/-- The workers finish in the order of the completion; a worker that panics
fails the scope. -/
def joinAll {β : Type} (finish : Completion) (work : ℕ → Option β) (handles : List ℕ) :
    Option (List β) := do
  let done ← (finish.order handles).mapM fun h => do
    let out ← work h
    some (h, out)
  handles.mapM fun h => done.lookup h

variable {α β : Type} {work : ℕ → Option β} {out : ℕ → β}

theorem mapM_some {f : α → Option β} {g : α → β} {l : List α} (h : ∀ a ∈ l, f a = some (g a)) :
    l.mapM f = some (l.map g) := by
  induction l with
  | nil => rfl
  | cons a l ih =>
    rw [List.mapM_cons, h a List.mem_cons_self, ih fun a ha => h a (List.mem_cons_of_mem _ ha)]
    rfl

theorem lookup_map_pair {hs : List ℕ} {h : ℕ} (hmem : h ∈ hs) :
    (hs.map fun h => (h, out h)).lookup h = some (out h) := by
  induction hs with
  | nil => exact absurd hmem List.not_mem_nil
  | cons h' hs ih =>
    rw [List.map_cons, List.lookup_cons]
    split
    case h_1 heq => rw [beq_iff_eq.mp heq]
    case h_2 hne =>
      apply ih
      obtain rfl | hmem := List.mem_cons.mp hmem
      · simp at hne
      · exact hmem

/-- Joining returns the results in the order of the handles. -/
theorem joinAll_eq (finish : Completion) {handles : List ℕ}
    (h : ∀ i ∈ handles, work i = some (out i)) :
    joinAll finish work handles = some (handles.map out) := by
  have hdone : (finish.order handles).mapM (fun i => do
      let out ← work i
      some (i, out)) = some ((finish.order handles).map fun i => (i, out i)) := by
    apply mapM_some
    intro i hi
    rw [h i ((finish.perm handles).mem_iff.mp hi)]
    rfl
  unfold joinAll
  rw [hdone, Option.bind_eq_bind, Option.bind_some]
  apply mapM_some
  intro i hi
  exact lookup_map_pair ((finish.perm handles).mem_iff.mpr hi)

/-- Looking up by handle what a list holds gives the list. -/
theorem map_range_elim {γ : Type} (l : List α) (g : α → List γ) :
    ((List.range l.length).map fun h => (l[h]?).elim [] g) = l.map g := by
  apply List.ext_getElem (by simp)
  intro h hh hh'
  simp [List.getElem?_eq_getElem (by simpa using hh)]

/-- The number of workers that the host runs at a time, one when it does not say. -/
def availableParallelism (host : Option ℕ+) : ℕ := (host.map PNat.val).getD 1

theorem availableParallelism_pos (host : Option ℕ+) : 0 < availableParallelism host := by
  cases host with
  | none => exact Nat.one_pos
  | some n => exact n.pos

end FrankenSim.Library
