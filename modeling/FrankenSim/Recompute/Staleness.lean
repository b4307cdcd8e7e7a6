import FrankenSim.Recompute.Soundness

/-!
# Stale inputs across plans

A node that an applied plan skipped keeps its stale bytes and shows this by its
burned slack. A later plan pulls in only what its own perturbation reaches, so it
can recompute a node from stale bytes; it does not exactly when it reaches every
stale input of the nodes it has to recompute.
-/
namespace FrankenSim.Recompute

open Library ExactFloat

def InvalidationPlan.recomputes {F : Type} (p : InvalidationPlan F) (k : ContentHash) : Bool :=
  p.verdicts.any fun v => v.1 = k && v.2 matches .recompute _ _

def isStale (store : Store ExactFloat) (k : ContentHash) : Bool :=
  store.nodes[k]?.any fun n => FloatOps.lt 0 n.burned

/-- Every stale input of a recomputed node is recomputed too. -/
def FreshInputs (store : Store ExactFloat) (edges : List (Edge ExactFloat))
    (p : InvalidationPlan ExactFloat) : Prop :=
  ∀ e ∈ edges, FloatOps.lt 0 e.sensitivity = true → p.recomputes e.toNode = true →
    isStale store e.fromNode = true → p.recomputes e.fromNode = true

instance (store : Store ExactFloat) (edges : List (Edge ExactFloat))
    (p : InvalidationPlan ExactFloat) : Decidable (FreshInputs store edges p) :=
  inferInstanceAs (Decidable (∀ e ∈ edges, _ → _ → _ → _))

/-- The perturbation reaches every stale input of the nodes it forces to recompute. -/
def StaleReached (store : Store ExactFloat) (edges : List (Edge ExactFloat))
    (perturbations : List (ContentHash × ExactFloat)) : Prop :=
  ∀ e ∈ edges, FloatOps.lt 0 e.sensitivity = true →
    MustRecompute store edges perturbations e.toNode → isStale store e.fromNode = true →
      frontier edges perturbations e.fromNode ≠ 0

theorem mustRecompute_reached {store : Store ExactFloat} {edges : List (Edge ExactFloat)}
    {perturbations : List (ContentHash × ExactFloat)} {k : ContentHash}
    (h : MustRecompute store edges perturbations k) : frontier edges perturbations k ≠ 0 := by
  cases h with
  | base h => exact h.1
  | pull h _ => exact h.2.1

section

variable [HashBytes] {store : Store ExactFloat} {edges : List (Edge ExactFloat)}
  {perturbations : List (ContentHash × ExactFloat)} {p : InvalidationPlan ExactFloat}

theorem PlanOf.recomputes_iff (h : PlanOf store edges perturbations p) (k : ContentHash) :
    p.recomputes k = true ↔ MustRecompute store edges perturbations k := by
  unfold InvalidationPlan.recomputes
  rw [List.any_eq_true]
  constructor
  · rintro ⟨⟨k', v⟩, hv, hmatch⟩
    cases v with
    | skip bound left => simp at hmatch
    | recompute bound reason =>
      obtain rfl : k' = k := by simpa using hmatch
      exact h.recompute _ bound reason hv
  · intro hmust
    obtain ⟨⟨k', v⟩, hv, rfl⟩ := List.mem_map.1 ((h.reached k).2 (mustRecompute_reached hmust))
    obtain ⟨bound, reason, rfl⟩ := (h.isRecompute_iff hv).2 hmust
    exact ⟨_, hv, by simp⟩

/-- A plan on a reachable store recomputes from fresh inputs exactly when its
perturbation reaches the stale ones. -/
theorem freshInputs_iff {apiEdges : List (Edge ExactFloat)} {defaultCost : ExactFloat}
    {api : RecomputeApi ExactFloat} (hreach : Reaches apiEdges defaultCost api)
    (hplan : plan api.store edges perturbations = .ok p) :
    FreshInputs api.store edges p ↔ StaleReached api.store edges perturbations := by
  have hspec := plan_spec hreach.wellFormed hreach.budgeted hplan
  constructor
  · intro hfresh e he hsensitive hmust hstale
    have hto := (hspec.recomputes_iff e.toNode).2 hmust
    exact mustRecompute_reached
      ((hspec.recomputes_iff e.fromNode).1 (hfresh e he hsensitive hto hstale))
  · intro hreached e he hsensitive hto hstale
    have hmust := (hspec.recomputes_iff e.toNode).1 hto
    refine (hspec.recomputes_iff e.fromNode).2 (.pull ⟨⟨e, he, rfl, rfl⟩, ?_, ?_⟩ hmust)
    · exact hreached e he hsensitive hmust hstale
    · exact mustRecompute_reached hmust

end

/-- Two sources; the first reaches `solve` through `mesh`. -/
def forkRecords : List (NodeRecord ExactFloat) :=
  [plainRecord "shape" 0 1, plainRecord "load" 0 1, plainRecord "mesh" 0 1, plainRecord "solve" 0 1]

def forkEdges : List (Edge ExactFloat) :=
  let _ := toyHash
  [⟨(plainRecord "shape" 0 1).contentHash, (plainRecord "mesh" 0 1).contentHash, fin 1⟩,
    ⟨(plainRecord "mesh" 0 1).contentHash, (plainRecord "solve" 0 1).contentHash, fin 1⟩,
    ⟨(plainRecord "load" 0 1).contentHash, (plainRecord "solve" 0 1).contentHash, fin 1⟩]

/-- The fork is stored, and a small change of the shape is absorbed. -/
def absorbShape [HashBytes] : Option (RecomputeApi ExactFloat) := do
  let api ← runList step (RecomputeApi.new (Store.new ExactFloat) forkEdges 0)
    (forkRecords.map fun record => .put record [1])
  let p ← (plan api.store forkEdges
    [((plainRecord "shape" 0 1).contentHash, fin (1 / 4))]).toOption
  step api (.applyPlan p)

theorem absorbShape_reaches [HashBytes] {api : RecomputeApi ExactFloat}
    (h : absorbShape = some api) : Reaches forkEdges 0 api := by
  simp only [absorbShape, Option.bind_eq_bind, Option.bind_eq_some_iff] at h
  obtain ⟨stored, hstored, p, -, hstep⟩ := h
  exact ⟨_, (run_of_runList hstored).append (Run.single hstep)⟩

theorem freshInputs_iff_shape :
    let _ := toyHash
    ∃ api p, Reaches forkEdges 0 api ∧
      plan api.store forkEdges [((plainRecord "shape" 0 1).contentHash, fin 1)] = .ok p ∧
      isStale api.store (plainRecord "mesh" 0 1).contentHash = true ∧
      StaleReached api.store forkEdges [((plainRecord "shape" 0 1).contentHash, fin 1)] := by
  intro hash
  have hrun : absorbShape.isSome := by decide +kernel
  obtain ⟨api, hapi⟩ := Option.isSome_iff_exists.1 hrun
  have hfacts : ∀ api ∈ absorbShape,
      isStale api.store (plainRecord "mesh" 0 1).contentHash = true ∧
      (plan api.store forkEdges [((plainRecord "shape" 0 1).contentHash, fin 1)]).toOption.map
        (fun p => decide (FreshInputs api.store forkEdges p)) = some true := by
    decide +kernel
  obtain ⟨hstale, hfresh⟩ := hfacts api hapi
  obtain ⟨p, hp, hfresh⟩ := Option.map_eq_some_iff.1 hfresh
  have hreach := absorbShape_reaches hapi
  have hplan := ok_of_toOption hp
  exact ⟨api, p, hreach, hplan, hstale,
    (freshInputs_iff hreach hplan).1 (of_decide_eq_true hfresh)⟩

/-- A later change of the load recomputes `solve` from the stale `mesh`. -/
theorem stale_input_consumed :
    let _ := toyHash
    ∃ api p, Reaches forkEdges 0 api ∧
      plan api.store forkEdges [((plainRecord "load" 0 1).contentHash, fin 1)] = .ok p ∧
      ¬ FreshInputs api.store forkEdges p := by
  intro hash
  have hrun : absorbShape.isSome := by decide +kernel
  obtain ⟨api, hapi⟩ := Option.isSome_iff_exists.1 hrun
  have hfacts : ∀ api ∈ absorbShape,
      (plan api.store forkEdges [((plainRecord "load" 0 1).contentHash, fin 1)]).toOption.map
        (fun p => decide (FreshInputs api.store forkEdges p)) = some false := by
    decide +kernel
  obtain ⟨p, hp, hstale⟩ := Option.map_eq_some_iff.1 (hfacts api hapi)
  exact ⟨api, p, absorbShape_reaches hapi, ok_of_toOption hp, of_decide_eq_false hstale⟩

end FrankenSim.Recompute
