import FrankenSim.Revolve.Treeverse

/-!
# Spilling snapshots to a store

The same halving with a fixed number of snapshots in memory: a deeper one goes to
a store under a fresh key and is read back when its segment is swept. The store
is any implementation of the trait that returns what was last written under a
key that has not been evicted since.
-/
namespace FrankenSim.Revolve

variable {S B M : Type*}

structure SnapshotStore (S M : Type*) where
  write : M → ℕ → S → M
  read : M → ℕ → S × M
  evict : M → ℕ → M

/-- A call of the store. -/
inductive StoreCall (S : Type*)
  | write (key : ℕ) (state : S)
  | read (key : ℕ)
  | evict (key : ℕ)

def StoreCall.key : StoreCall S → ℕ
  | .write key _ | .read key | .evict key => key

def SnapshotStore.apply (store : SnapshotStore S M) (memory : M) : StoreCall S → M
  | .write key state => store.write memory key state
  | .read key => (store.read memory key).2
  | .evict key => store.evict memory key

/-- What one call leaves live under a key. -/
def nextLive (key : ℕ) (live : Option S) : StoreCall S → Option S
  | .write k state => if k = key then some state else live
  | .read _ => live
  | .evict k => if k = key then none else live

/-- The state last written under a key that has not been evicted since. -/
def live (key : ℕ) (calls : List (StoreCall S)) : Option S := calls.foldl (nextLive key) none

/-- The contract of the trait: a read returns what is live under its key. -/
def SnapshotStore.Honest (store : SnapshotStore S M) (memory : M) : Prop :=
  ∀ (calls : List (StoreCall S)) (key : ℕ) (state : S), live key calls = some state →
    (store.read (calls.foldl store.apply memory) key).1 = state

/-- What a spilling sweep has counted, the calls it has made of the store, its
memory and the next fresh key. -/
structure SpillProgress (S M : Type*) where
  progress : Progress S
  peakRamSnapshots : ℕ
  spills : ℕ
  restores : ℕ
  calls : List (StoreCall S)
  memory : M
  nextKey : ℕ

/-- Where the base snapshot of a level lives. -/
inductive Slot (S : Type*)
  | ram (state : S)
  | spilled (key : ℕ)

namespace SpillProgress

def start (memory : M) : SpillProgress S M := ⟨.start, 0, 0, 0, [], memory, 0⟩

def holdRam (p : SpillProgress S M) (held : ℕ) : SpillProgress S M :=
  { p with peakRamSnapshots := max p.peakRamSnapshots held }

def withProgress (p : SpillProgress S M) (progress : Progress S) : SpillProgress S M :=
  { p with progress }

/-- The start state of a level, read back from the store if it was spilled. -/
def materialize (store : SnapshotStore S M) (slot : Slot S) (p : SpillProgress S M) :
    S × SpillProgress S M :=
  match slot with
  | .ram state => (state, p)
  | .spilled key =>
    let (state, memory) := store.read p.memory key
    (state, { p with
      restores := p.restores + 1
      calls := p.calls ++ [.read key]
      memory })

/-- The middle snapshot stays in memory within the budget, and is spilled beyond it. -/
def place (store : SnapshotStore S M) (state : S) (ramHeld ramBudget : ℕ)
    (p : SpillProgress S M) : Slot S × ℕ × SpillProgress S M :=
  if ramHeld < ramBudget then (.ram state, ramHeld + 1, p)
  else
    (.spilled p.nextKey, ramHeld, { p with
      nextKey := p.nextKey + 1
      spills := p.spills + 1
      calls := p.calls ++ [.write p.nextKey state]
      memory := store.write p.memory p.nextKey state })

def release (store : SnapshotStore S M) (slot : Slot S) (p : SpillProgress S M) :
    SpillProgress S M :=
  match slot with
  | .ram _ => p
  | .spilled key => { p with
      calls := p.calls ++ [.evict key]
      memory := store.evict p.memory key }

end SpillProgress

section

variable (forward : ℕ → S → S) (reverse : ℕ → S → B → B) (store : SnapshotStore S M)

def spillSweep (slot : Slot S) (first last : ℕ) (bar : B) (p : SpillProgress S M)
    (ramHeld ramBudget : ℕ) : B × SpillProgress S M :=
  let p := (p.withProgress (p.progress.hold ramHeld)).holdRam ramHeld
  let (state, p) := p.materialize store slot
  if h : last - first ≤ 1 then
    (reverse first state bar, p.withProgress (p.progress.call first state))
  else
    let mid := ceilMidpoint first last
    let (sMid, progress) := advance forward first mid state p.progress
    let (midSlot, childRam, p) := (p.withProgress progress).place store sMid ramHeld ramBudget
    let p := p.holdRam childRam
    let (bar, p) := spillSweep midSlot mid last bar p childRam ramBudget
    let p := p.release store midSlot
    spillSweep slot first mid bar p ramHeld ramBudget
termination_by last - first
decreasing_by
  all_goals
    have hbounds := ceilMidpoint_bounds first last (by omega)
    omega

def checkpointedAdjointSpilling (x0 : S) (steps ramBudget : ℕ) (memory : M) (seed : B) :
    Option (B × SpillProgress S M) :=
  if steps = 0 then some (seed, .start memory)
  else if ramBudget < 1 then none
  else some (spillSweep forward reverse store (.ram x0) 0 steps seed (.start memory) 1 ramBudget)

end

section Traffic

/-- The calls about one key. -/
def about (key : ℕ) (calls : List (StoreCall S)) : List (StoreCall S) :=
  calls.filter fun call => call.key = key

theorem about_append (key : ℕ) (calls calls' : List (StoreCall S)) :
    about key (calls ++ calls') = about key calls ++ about key calls' := List.filter_append _ _

/-- A key is written once, read any number of times, and evicted once. -/
def Lifecycle (key : ℕ) (calls : List (StoreCall S)) : Prop :=
  ∃ state reads, calls = .write key state :: (List.replicate reads (.read key) ++ [.evict key])

/-- The calls of a sweep whose base snapshot has the key `base`: that key is only
read, the keys from `lo` to `hi` live and die, and no other key occurs. -/
structure Traffic (base : Option ℕ) (lo hi : ℕ) (calls : List (StoreCall S)) : Prop where
  base_lt : ∀ key, base = some key → key < lo
  le : lo ≤ hi
  reads : ∀ key, base = some key → ∃ n, about key calls = List.replicate n (.read key)
  lives : ∀ key, lo ≤ key → key < hi → Lifecycle key (about key calls)
  rest : ∀ key, base ≠ some key → key < lo ∨ hi ≤ key → about key calls = []

variable {base : Option ℕ} {lo mid hi : ℕ} {calls calls' : List (StoreCall S)}

theorem Traffic.nil (hbase : ∀ key, base = some key → key < lo) :
    Traffic base lo lo ([] : List (StoreCall S)) where
  base_lt := hbase
  le := le_rfl
  reads _ _ := ⟨0, rfl⟩
  lives key hlo hhi := absurd hlo (not_le_of_gt hhi)
  rest _ _ _ := rfl

theorem Traffic.read {key : ℕ} (h : key < lo) :
    Traffic (some key) lo lo [(.read key : StoreCall S)] where
  base_lt := by
    rintro _ ⟨⟩
    exact h
  le := le_rfl
  reads := by
    rintro _ ⟨⟩
    exact ⟨1, by simp [about, StoreCall.key]⟩
  lives key hlo hhi := absurd hlo (not_le_of_gt hhi)
  rest k hk _ := by
    have hne : key ≠ k := fun heq => hk (congrArg some heq)
    simp [about, StoreCall.key, hne]

theorem Traffic.append (h : Traffic base lo mid calls) (h' : Traffic base mid hi calls') :
    Traffic base lo hi (calls ++ calls') where
  base_lt := h.base_lt
  le := h.le.trans h'.le
  reads key hkey := by
    obtain ⟨n, hn⟩ := h.reads key hkey
    obtain ⟨m, hm⟩ := h'.reads key hkey
    exact ⟨n + m, by rw [about_append, hn, hm, List.replicate_append_replicate]⟩
  lives key hlo hhi := by
    have hbase : base ≠ some key := fun hkey => absurd (h.base_lt key hkey) (not_lt_of_ge hlo)
    rw [about_append]
    by_cases hmid : key < mid
    · rw [h'.rest key hbase (.inl hmid), List.append_nil]
      exact h.lives key hlo hmid
    · rw [h.rest key hbase (.inr (not_lt.1 hmid)), List.nil_append]
      exact h'.lives key (not_lt.1 hmid) hhi
  rest key hbase hout := by
    have hle := h.le
    have hle' := h'.le
    rw [about_append, h.rest key hbase (by omega), h'.rest key hbase (by omega)]
    rfl

/-- A sweep from memory touches no key that was there before. -/
theorem Traffic.inside (h : Traffic none lo hi calls) (hbase : ∀ key, base = some key → key < lo) :
    Traffic base lo hi calls where
  base_lt := hbase
  le := h.le
  reads key hkey := ⟨0, h.rest key (by simp) (.inl (hbase key hkey))⟩
  lives := h.lives
  rest key _ := h.rest key (by simp)

/-- A sweep from a spilled snapshot, between its write and its eviction. -/
theorem Traffic.enclose {key : ℕ} (h : Traffic (some key) (key + 1) hi calls) (state : S) :
    Traffic none key hi (.write key state :: (calls ++ [.evict key])) where
  base_lt := nofun
  le := (Nat.le_succ key).trans h.le
  reads := nofun
  lives k hlo hhi := by
    by_cases hk : k = key
    · subst hk
      obtain ⟨n, hn⟩ := h.reads k rfl
      refine ⟨state, n, ?_⟩
      rw [← hn]
      simp [about, StoreCall.key]
    · have hne : key ≠ k := Ne.symm hk
      have hinner : about k (.write key state :: (calls ++ [.evict key])) = about k calls := by
        simp [about, StoreCall.key, hne]
      rw [hinner]
      exact h.lives k (by omega) hhi
  rest k _ hout := by
    have hle := h.le
    have hne : key ≠ k := by omega
    have hinner : about k (.write key state :: (calls ++ [.evict key])) = about k calls := by
      simp [about, StoreCall.key, hne]
    rw [hinner]
    exact h.rest k (fun hkey => hne (Option.some.inj hkey)) (by omega)

theorem foldl_nextLive_about (key : ℕ) (calls : List (StoreCall S)) (current : Option S) :
    calls.foldl (nextLive key) current = (about key calls).foldl (nextLive key) current := by
  induction calls generalizing current with
  | nil => rfl
  | cons call calls ih =>
    by_cases hkey : call.key = key
    · rw [List.foldl_cons, ih]
      simp [about, hkey]
    · have hsame : nextLive key current call = current := by
        cases call with
        | write k state => exact if_neg hkey
        | read k => rfl
        | evict k => exact if_neg hkey
      rw [List.foldl_cons, hsame, ih]
      simp [about, hkey]

theorem live_append (key : ℕ) (calls calls' : List (StoreCall S)) :
    live key (calls ++ calls') = (about key calls').foldl (nextLive key) (live key calls) := by
  rw [live, List.foldl_append, foldl_nextLive_about]
  rfl

theorem foldl_nextLive_reads (key n : ℕ) (current : Option S) :
    (List.replicate n (.read key)).foldl (nextLive key) current = current := by
  induction n with
  | zero => rfl
  | succ n ih => exact ih

/-- Reads leave a key live. -/
theorem Traffic.live_base {key : ℕ} (h : Traffic (some key) lo hi calls')
    (calls : List (StoreCall S)) : live key (calls ++ calls') = live key calls := by
  obtain ⟨n, hn⟩ := h.reads key rfl
  rw [live_append, hn, foldl_nextLive_reads]

end Traffic

section Sweep

variable {forward : ℕ → S → S} {reverse : ℕ → S → B → B} {x0 : S} {store : SnapshotStore S M}
  {memory : M}

def Slot.key? : Slot S → Option ℕ
  | .ram _ => none
  | .spilled key => some key

/-- The slot gives back a state: it holds it, or the state is live in the store
under a key that is not fresh. -/
def Slot.Holds (state : S) (p : SpillProgress S M) : Slot S → Prop
  | .ram s => s = state
  | .spilled key => live key p.calls = some state ∧ key < p.nextKey

/-- The memory is what the calls made of it. -/
def Consistent (store : SnapshotStore S M) (memory : M) (p : SpillProgress S M) : Prop :=
  p.memory = p.calls.foldl store.apply memory

theorem Consistent.snoc {p q : SpillProgress S M} (call : StoreCall S)
    (hp : Consistent store memory p) (hcalls : q.calls = p.calls ++ [call])
    (hmemory : q.memory = store.apply p.memory call) : Consistent store memory q := by
  rw [Consistent, hcalls, List.foldl_append, hmemory, hp]
  rfl

/-- The calls between two moments of a sweep are regular traffic. -/
structure Calls (store : SnapshotStore S M) (memory : M) (base : Option ℕ)
    (p p' : SpillProgress S M) : Prop where
  consistent : Consistent store memory p'
  traffic : ∃ calls, p'.calls = p.calls ++ calls ∧ Traffic base p.nextKey p'.nextKey calls

theorem Calls.trans {base : Option ℕ} {p p' p'' : SpillProgress S M}
    (h : Calls store memory base p p') (h' : Calls store memory base p' p'') :
    Calls store memory base p p'' where
  consistent := h'.consistent
  traffic := by
    obtain ⟨calls, hcalls, htraffic⟩ := h.traffic
    obtain ⟨calls', hcalls', htraffic'⟩ := h'.traffic
    refine ⟨calls ++ calls', ?_, htraffic.append htraffic'⟩
    rw [hcalls', hcalls, List.append_assoc]

/-- A snapshot that a slot holds is still there after regular traffic. -/
theorem Slot.Holds.after {slot : Slot S} {state : S} {p p' : SpillProgress S M}
    (h : slot.Holds state p) (hcalls : Calls store memory slot.key? p p') :
    slot.Holds state p' := by
  obtain ⟨calls, heq, htraffic⟩ := hcalls.traffic
  cases slot with
  | ram s => exact h
  | spilled key =>
    refine ⟨?_, h.2.trans_le htraffic.le⟩
    rw [heq]
    exact (htraffic.live_base p.calls).trans h.1

theorem Slot.Holds.base_lt {slot : Slot S} {state : S} {p : SpillProgress S M}
    (h : slot.Holds state p) (key : ℕ) (hkey : slot.key? = some key) : key < p.nextKey := by
  cases slot with
  | ram s => cases hkey
  | spilled k =>
    cases hkey
    exact h.2

/-- Reading the base snapshot gives the true state, at the cost of a read. -/
theorem materialize_spec (hstore : store.Honest memory) {slot : Slot S} {state : S}
    {p : SpillProgress S M} (hp : Consistent store memory p) (hslot : slot.Holds state p) :
    ∃ q, p.materialize store slot = (state, q) ∧ q.progress = p.progress ∧
      q.peakRamSnapshots = p.peakRamSnapshots ∧ Calls store memory slot.key? p q := by
  cases slot with
  | ram s =>
    obtain rfl : s = state := hslot
    exact ⟨p, rfl, rfl, rfl, hp, [], (List.append_nil _).symm, .nil nofun⟩
  | spilled key =>
    have hread := hstore p.calls key state hslot.1
    rw [← hp] at hread
    exact ⟨_, Prod.ext hread rfl, rfl, rfl, hp.snoc (.read key) rfl rfl, [.read key], rfl,
      .read hslot.2⟩

/-- What a sweep over a segment does: it reverses the steps, stays within the
budget, and its calls of the store are regular traffic. -/
structure Spills (forward : ℕ → S → S) (reverse : ℕ → S → B → B) (x0 : S)
    (store : SnapshotStore S M) (memory : M) (base : Option ℕ) (first last ramBudget : ℕ) (bar : B)
    (p : SpillProgress S M) (bar' : B) (p' : SpillProgress S M) : Prop where
  reverses : Reverses forward reverse x0 first last bar p.progress bar' p'.progress
  peak : p'.peakRamSnapshots ≤ max p.peakRamSnapshots ramBudget
  calls : Calls store memory base p p'

/-- The right part of a segment, swept from a snapshot placed within the budget. -/
theorem right_spec {mid last ramHeld ramBudget : ℕ} {base : Option ℕ} (bar : B)
    (p : SpillProgress S M) (hp : Consistent store memory p) (hheld : ramHeld ≤ ramBudget)
    (hbase : ∀ key, base = some key → key < p.nextKey)
    (ih : ∀ (slot : Slot S) (q : SpillProgress S M) (held : ℕ), Consistent store memory q →
      slot.Holds (trueState forward x0 mid) q → held ≤ ramBudget →
        ∃ bar' q', spillSweep forward reverse store slot mid last bar q held ramBudget = (bar', q') ∧
          Spills forward reverse x0 store memory slot.key? mid last ramBudget bar q bar' q') :
    ∃ midSlot childRam q bar' q',
      p.place store (trueState forward x0 mid) ramHeld ramBudget = (midSlot, childRam, q) ∧
        spillSweep forward reverse store midSlot mid last bar (q.holdRam childRam) childRam
          ramBudget = (bar', q') ∧
        Spills forward reverse x0 store memory base mid last ramBudget bar p bar'
          (q'.release store midSlot) := by
  unfold SpillProgress.place
  split
  case isTrue hroom =>
    obtain ⟨bar', q', hsweep, hspills⟩ := ih (.ram (trueState forward x0 mid))
      (p.holdRam (ramHeld + 1)) (ramHeld + 1) hp rfl hroom
    refine ⟨_, _, _, bar', q', rfl, hsweep, hspills.reverses, ?_, hspills.calls.consistent, ?_⟩
    · have hpeak := hspills.peak
      simp only [SpillProgress.holdRam, SpillProgress.release] at hpeak ⊢
      omega
    · obtain ⟨calls, hcalls, htraffic⟩ := hspills.calls.traffic
      exact ⟨calls, hcalls, htraffic.inside hbase⟩
  case isFalse hfull =>
    let q : SpillProgress S M := { p with
      nextKey := p.nextKey + 1
      spills := p.spills + 1
      calls := p.calls ++ [.write p.nextKey (trueState forward x0 mid)]
      memory := store.write p.memory p.nextKey (trueState forward x0 mid) }
    have hq : Consistent store memory (q.holdRam ramHeld) :=
      hp.snoc (.write p.nextKey (trueState forward x0 mid)) rfl rfl
    have hheldSlot : (Slot.spilled p.nextKey).Holds (trueState forward x0 mid)
        (q.holdRam ramHeld) := by
      refine ⟨?_, Nat.lt_succ_self _⟩
      change live p.nextKey (p.calls ++ [.write p.nextKey (trueState forward x0 mid)]) = _
      rw [live, List.foldl_append]
      exact if_pos rfl
    obtain ⟨bar', q', hsweep, hspills⟩ := ih _ _ _ hq hheldSlot hheld
    obtain ⟨calls, hcalls, htraffic⟩ := hspills.calls.traffic
    refine ⟨_, _, _, bar', q', rfl, hsweep, hspills.reverses, ?_, ?_,
      .write p.nextKey (trueState forward x0 mid) :: (calls ++ [.evict p.nextKey]), ?_, ?_⟩
    · have hpeak := hspills.peak
      change q'.peakRamSnapshots ≤ max p.peakRamSnapshots ramBudget
      change q'.peakRamSnapshots ≤ max (max p.peakRamSnapshots ramHeld) ramBudget at hpeak
      omega
    · exact hspills.calls.consistent.snoc (.evict p.nextKey) rfl rfl
    · change q'.calls ++ [.evict p.nextKey] = _
      rw [hcalls]
      simp [q, SpillProgress.holdRam]
    · exact (htraffic.enclose (trueState forward x0 mid)).inside hbase

/-- One level at a time: the base is read, the right part is swept from its own
snapshot, and the left part again from the base. -/
theorem spillSweep_spec (reverse : ℕ → S → B → B) (hstore : store.Honest memory) {ramBudget : ℕ} (span : ℕ) :
    ∀ (slot : Slot S) (first last : ℕ) (bar : B) (p : SpillProgress S M) (ramHeld : ℕ),
      last - first = span → first < last → Consistent store memory p →
        slot.Holds (trueState forward x0 first) p → ramHeld ≤ ramBudget →
          ∃ bar' p', spillSweep forward reverse store slot first last bar p ramHeld ramBudget =
              (bar', p') ∧
            Spills forward reverse x0 store memory slot.key? first last ramBudget bar p bar' p' := by
  induction span using Nat.strongRecOn with
  | ind span ih =>
    intro slot first last bar p ramHeld hspan hlt hp hslot hheld
    have hslot' : slot.Holds (trueState forward x0 first)
        ((p.withProgress (p.progress.hold ramHeld)).holdRam ramHeld) := by
      cases slot <;> exact hslot
    obtain ⟨q, hq, hprogress, hpeak, hread⟩ := materialize_spec hstore (by exact hp) hslot'
    have hpeakq : q.peakRamSnapshots ≤ max p.peakRamSnapshots ramBudget := by
      rw [hpeak]
      exact max_le_max le_rfl hheld
    have hreversed : q.progress.reversed = p.progress.reversed := by
      rw [hprogress]
      rfl
    rw [spillSweep]
    simp only [hq]
    split
    case isTrue h =>
      obtain rfl : last = first + 1 := by omega
      exact ⟨_, _, rfl, .single hreversed, hpeakq, hread.consistent, hread.traffic⟩
    case isFalse h =>
      obtain ⟨hfirst, hlast, -⟩ := ceilMidpoint_bounds first last (by omega)
      obtain ⟨progress, hadvance, hadvanced, -⟩ :=
        advance_spec forward x0 hfirst.le q.progress
      have hholds : slot.Holds (trueState forward x0 first) (q.withProgress progress) := by
        have hafter := hslot'.after hread
        cases slot <;> exact hafter
      obtain ⟨midSlot, childRam, r, bar₁, p₁, hplace, hright, hspills₁⟩ :=
        right_spec bar (q.withProgress progress)
          hread.consistent hheld hholds.base_lt
          fun slot q held hq hslot hheld =>
            ih _ (by omega) slot (ceilMidpoint first last) last bar q held rfl hlast hq hslot hheld
      obtain ⟨bar₂, p₂, hleft, hspills₂⟩ := ih _ (by omega) slot first (ceilMidpoint first last) bar₁
        (p₁.release store midSlot) ramHeld rfl hfirst hspills₁.calls.consistent
        (hholds.after hspills₁.calls) hheld
      simp only [hadvance, hplace, hright, hleft]
      refine ⟨_, _, rfl, ?_, ?_, ?_⟩
      · exact hspills₁.reverses.join hfirst.le hlast.le (hadvanced.trans hreversed) hspills₂.reverses
      · have hpeak₁ := hspills₁.peak
        have hpeak₂ := hspills₂.peak
        change _ ≤ max q.peakRamSnapshots _ at hpeak₁
        omega
      · have hbefore : Calls store memory slot.key? p q := ⟨hread.consistent, hread.traffic⟩
        have hmiddle : Calls store memory slot.key? q (p₁.release store midSlot) :=
          ⟨hspills₁.calls.consistent, hspills₁.calls.traffic⟩
        exact (hbefore.trans hmiddle).trans hspills₂.calls

/-- The spilling sweep reverses the chain within its memory budget, and every
spilled key is written, read and evicted in this order. -/
theorem checkpointedAdjointSpilling_spec (forward : ℕ → S → S) (reverse : ℕ → S → B → B) (x0 : S)
    (steps : ℕ) (hstore : store.Honest memory) {ramBudget : ℕ}
    (hbudget : 1 ≤ ramBudget) (seed : B) :
    ∃ p, checkpointedAdjointSpilling forward reverse store x0 steps ramBudget memory seed =
        some (fullAdjoint forward reverse x0 steps seed, p) ∧
      p.progress.reversed = callsDown forward x0 0 steps ∧
      p.peakRamSnapshots ≤ ramBudget ∧
      ∀ key, about key p.calls = [] ∨ Lifecycle key (about key p.calls) := by
  unfold checkpointedAdjointSpilling
  split
  case isTrue h =>
    subst h
    exact ⟨.start memory, rfl, rfl, Nat.zero_le _, fun _ => .inl rfl⟩
  case isFalse h =>
    obtain ⟨bar, p, hsweep, hspills⟩ := spillSweep_spec reverse hstore steps (.ram x0) 0
      steps seed (.start memory) 1 rfl (Nat.pos_of_ne_zero h) rfl rfl hbudget
    rw [if_neg (not_lt_of_ge hbudget), hsweep, hspills.reverses.bar_eq, ← fullAdjoint_eq]
    refine ⟨p, rfl, hspills.reverses.reversed, ?_, fun key => ?_⟩
    · have hpeak := hspills.peak
      simp only [SpillProgress.start] at hpeak
      omega
    · obtain ⟨calls, hcalls, htraffic⟩ := hspills.calls.traffic
      have hall : p.calls = calls := hcalls
      rw [hall]
      by_cases hkey : key < p.nextKey
      · exact .inr (htraffic.lives key (Nat.zero_le _) hkey)
      · exact .inl (htraffic.rest key nofun (.inr (not_lt.1 hkey)))

end Sweep

end FrankenSim.Revolve
