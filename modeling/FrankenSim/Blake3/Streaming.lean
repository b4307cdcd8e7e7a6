import FrankenSim.Blake3.Tree

/-!
# The streaming hasher computes the tree

The state of a chunk continues the chain of its blocks, and the stack of the hasher
is the forest of the closed chunks. Both invariants hold after every update, so a
digest taken at any time is the hash of the tree of everything absorbed so far.
-/
namespace FrankenSim.Blake3

open Library

variable {cf : CompressionFunction} {keyWords : ChainingValue} {flags : UInt32}

/-! ### One chunk -/

section Chunks

variable {counter : ℕ} {bytes : List UInt8} {c : ChunkState}

variable (cf keyWords flags) in
/-- The state of a chunk that has absorbed some bytes: the rest of the chunk continues
from its chaining value and its buffer. -/
structure ChunkAbsorbed (counter : ℕ) (bytes : List UInt8) (c : ChunkState) : Prop where
  chunkCounter : c.chunkCounter = counter
  flags_eq : c.flags = flags
  length_eq : bytes.length = c.len
  buffer : ∃ buffer : List UInt8, buffer.length = c.blockLen ∧ buffer.length ≤ BLOCK_LEN ∧
    c.block = pad buffer ∧ ∀ more : List UInt8,
      more ≠ [] ∨ c.blockLen ≠ 0 ∨ c.blocksCompressed = 0 →
        chunkOutput cf keyWords flags counter (bytes ++ more) =
          blockChain cf flags counter c.chainingValue c.blocksCompressed (buffer ++ more)

/-- The last block of the chunk is the open one. -/
def ChunkState.Open (c : ChunkState) : Prop := c.blockLen ≠ 0 ∨ c.blocksCompressed = 0

theorem chunkAbsorbed_new (counter : ℕ) :
    ChunkAbsorbed cf keyWords flags counter [] (ChunkState.new keyWords counter flags) where
  chunkCounter := rfl
  flags_eq := rfl
  length_eq := rfl
  buffer := ⟨[], rfl, Nat.zero_le _, rfl, fun _ _ => rfl⟩

theorem startFlag_eq (h : ChunkAbsorbed cf keyWords flags counter bytes c) :
    c.startFlag = blockFlags flags c.blocksCompressed := by
  rw [ChunkState.startFlag, h.flags_eq]
  rfl

theorem ChunkAbsorbed.output (h : ChunkAbsorbed cf keyWords flags counter bytes c)
    (hopen : c.Open) : c.output = chunkOutput cf keyWords flags counter bytes := by
  obtain ⟨buffer, hlen, hle, hblock, hchain⟩ := h.buffer
  have hrest := hchain [] (.inr hopen)
  rw [List.append_nil, List.append_nil] at hrest
  rw [hrest, blockChain, if_pos hle, ChunkState.output, startFlag_eq h, hblock, h.chunkCounter,
    hlen]

theorem ChunkAbsorbed.compressBlock (h : ChunkAbsorbed cf keyWords flags counter bytes c)
    (hfull : c.blockLen = BLOCK_LEN) (hlt : c.blocksCompressed + 1 < 2 ^ 8) :
    ∃ c', c.compressBlock cf = some c' ∧ ChunkAbsorbed cf keyWords flags counter bytes c' ∧
      c'.blockLen = 0 := by
  obtain ⟨buffer, hlen, hle, hblock, hchain⟩ := h.buffer
  rw [hfull] at hlen
  have hpad : c.block = buffer := by
    rw [hblock, pad, hlen, Nat.sub_self, List.replicate_zero, List.append_nil]
  unfold ChunkState.compressBlock
  rw [checkedAdd_of_lt hlt]
  refine ⟨_, rfl, ⟨h.chunkCounter, h.flags_eq, ?_, [], rfl, Nat.zero_le _, rfl, ?_⟩, rfl⟩
  · rw [h.length_eq]
    simp only [ChunkState.len, hfull]
    ring
  · intro more hmore
    have hne : more ≠ [] := by
      rcases hmore with hne | hzero | hzero
      · exact hne
      · exact absurd rfl hzero
      · exact absurd hzero (Nat.succ_ne_zero _)
    have hlong : ¬(buffer ++ more).length ≤ BLOCK_LEN := by
      have hpos := List.length_pos_iff.2 hne
      rw [List.length_append]
      omega
    rw [hchain more (.inl hne), blockChain, if_neg hlong, List.take_left' hlen,
      List.drop_left' hlen, List.nil_append, ← hpad, startFlag_eq h, h.chunkCounter]

theorem ChunkAbsorbed.fill (h : ChunkAbsorbed cf keyWords flags counter bytes c)
    (input : List UInt8) (hne : input ≠ []) (hfits : c.blockLen + input.length ≤ BLOCK_LEN) :
    ∃ c', c.fill input = some c' ∧
      ChunkAbsorbed cf keyWords flags counter (bytes ++ input) c' ∧ c'.blockLen ≠ 0 := by
  obtain ⟨buffer, hlen, hle, hblock, hchain⟩ := h.buffer
  have hpos := List.length_pos_iff.2 hne
  have hword : c.blockLen + input.length < 2 ^ 8 := by
    unfold BLOCK_LEN at hfits
    omega
  unfold ChunkState.fill
  rw [checkedAdd_of_lt hword]
  refine ⟨_, rfl, ⟨h.chunkCounter, h.flags_eq, ?_, buffer ++ input, ?_, ?_, ?_, ?_⟩, ?_⟩
  · rw [List.length_append, h.length_eq]
    simp only [ChunkState.len]
    omega
  · rw [List.length_append, hlen]
  · rw [List.length_append, hlen]
    exact hfits
  · have hdrop : (pad buffer).drop (c.blockLen + input.length) =
        List.replicate (BLOCK_LEN - (buffer ++ input).length) 0 := by
      rw [pad, ← hlen, List.drop_append, List.drop_replicate, List.length_append,
        List.drop_of_length_le (Nat.le_add_right _ _), List.nil_append]
      congr 1
      omega
    simp only [hblock, hdrop]
    rw [pad, List.take_left' hlen, pad]
  · intro more hmore
    have hrest := hchain (input ++ more) (.inl (by simp [hne]))
    rw [← List.append_assoc] at hrest
    rw [hrest, List.append_assoc, List.append_assoc]
  · simp only
    omega

/-- A chunk absorbs any input that fits, and its last block stays open. -/
theorem ChunkAbsorbed.update (h : ChunkAbsorbed cf keyWords flags counter bytes c)
    (hopen : c.Open) (input : List UInt8) (hfits : bytes.length + input.length ≤ CHUNK_LEN) :
    ∃ c', c.update cf input = some c' ∧
      ChunkAbsorbed cf keyWords flags counter (bytes ++ input) c' ∧ c'.Open := by
  induction hn : input.length using Nat.strong_induction_on generalizing bytes c input with
  | _ n ih =>
    by_cases hinput : input = []
    · subst hinput
      rw [ChunkState.update, dif_pos rfl, List.append_nil]
      exact ⟨c, rfl, h, hopen⟩
    · have hpos := List.length_pos_iff.2 hinput
      have hlen := h.length_eq
      simp only [ChunkState.len] at hlen
      -- the loop body first makes room in the block
      have hroom : ∃ c₁, (if c.blockLen = BLOCK_LEN then c.compressBlock cf else some c) =
          some c₁ ∧ ChunkAbsorbed cf keyWords flags counter bytes c₁ ∧
            c₁.blockLen < BLOCK_LEN := by
        by_cases hfull : c.blockLen = BLOCK_LEN
        · rw [if_pos hfull]
          have hlt : c.blocksCompressed + 1 < 2 ^ 8 := by
            unfold BLOCK_LEN CHUNK_LEN at *
            omega
          obtain ⟨c₁, heq, hc₁, hzero⟩ := h.compressBlock hfull hlt
          exact ⟨c₁, heq, hc₁, by rw [hzero]; exact Nat.zero_lt_succ _⟩
        · rw [if_neg hfull]
          obtain ⟨buffer, hbuffer, hle, -⟩ := h.buffer
          exact ⟨c, rfl, h, by omega⟩
      obtain ⟨c₁, heq, hc₁, hlt⟩ := hroom
      obtain ⟨t, ht⟩ : ∃ t, min (BLOCK_LEN - c₁.blockLen) input.length = t := ⟨_, rfl⟩
      have htpos : t ≠ 0 := by omega
      have htake : (input.take t).length = t := by
        rw [List.length_take]
        omega
      obtain ⟨c₂, hfill, hc₂, hopened⟩ := hc₁.fill (input.take t)
        (List.ne_nil_of_length_pos (by omega)) (by omega)
      obtain ⟨c', hupdate, hc', hopen'⟩ := ih (input.drop t).length
        (by rw [List.length_drop]; omega) hc₂ (.inl hopened) (input.drop t)
        (by rw [List.length_append, htake, List.length_drop]; omega) rfl
      rw [List.append_assoc, List.take_append_drop] at hc'
      refine ⟨c', ?_, hc', hopen'⟩
      rw [ChunkState.update, dif_neg hinput, heq, Option.bind_some]
      simp only [ht, dif_neg htpos, hfill, Option.bind_some]
      exact hupdate

end Chunks

/-! ### The stack -/

namespace Blake3

/-- The chaining values on the stack, from the bottom up. -/
def stack (self : Blake3) : List ChainingValue := self.cvStack.toList.take self.cvStackLen

variable {s : Blake3}

theorem pushStack_spec (hlt : s.cvStackLen < MAX_DEPTH) (cv : ChainingValue) :
    ∃ s', s.pushStack cv = some s' ∧ s'.stack = s.stack ++ [cv] ∧ s'.cvStackLen ≤ MAX_DEPTH ∧
      s'.keyWords = s.keyWords ∧ s'.flags = s.flags ∧ s'.chunkState = s.chunkState := by
  have hword : s.cvStackLen + 1 < 2 ^ 8 := by
    unfold MAX_DEPTH at hlt
    omega
  unfold pushStack
  rw [dif_pos hlt, checkedAdd_of_lt hword]
  refine ⟨_, rfl, ?_, hlt, rfl, rfl, rfl⟩
  have hlen : s.cvStackLen < s.cvStack.toList.length := by simpa using hlt
  simp only [stack, Vector.toList_set]
  rw [List.take_succ_eq_append_getElem (by simpa using hlt), List.getElem_set_self]
  congr 1
  exact List.take_set_of_le le_rfl

theorem popStack_spec {rest : List ChainingValue} {cv : ChainingValue}
    (hstack : s.stack = rest ++ [cv]) (hle : s.cvStackLen ≤ MAX_DEPTH) :
    ∃ s', s.popStack = some (cv, s') ∧ s'.stack = rest ∧ s'.cvStackLen ≤ MAX_DEPTH ∧
      s'.keyWords = s.keyWords ∧ s'.flags = s.flags ∧ s'.chunkState = s.chunkState := by
  have hlen : s.stack.length = s.cvStackLen := by
    simp only [stack, List.length_take, Vector.length_toList]
    omega
  have hcount : s.cvStackLen = rest.length + 1 := by
    rw [← hlen, hstack, List.length_append, List.length_singleton]
  have hlt : rest.length < MAX_DEPTH := by omega
  have hsplit : s.cvStack.toList.take rest.length ++ [s.cvStack[rest.length]] = rest ++ [cv] := by
    rw [← hstack, stack, hcount, List.take_succ_eq_append_getElem (by simpa using hlt)]
    rfl
  obtain ⟨hrest, hcv⟩ := List.append_inj' hsplit rfl
  have hget : s.cvStack[rest.length]? = some cv := by
    rw [Vector.getElem?_eq_getElem hlt]
    exact congrArg some (List.singleton_inj.1 hcv)
  unfold popStack
  rw [if_neg (by omega), hcount, Nat.add_sub_cancel, hget]
  exact ⟨_, rfl, hrest, hlt.le, rfl, rfl, rfl⟩

theorem foldStack_eq (n : ℕ) (hn : n ≤ MAX_DEPTH) (output : Output) :
    s.foldStack cf n output = some ((s.cvStack.toList.take n).foldr
      (fun cv output => parentOutput s.keyWords s.flags cv (output.chainingValue cf)) output) := by
  induction n generalizing output with
  | zero => rfl
  | succ n ih =>
    have hlt : n < s.cvStack.toList.length := by
      rw [Vector.length_toList]
      omega
    have hget : s.cvStack[n]? = some s.cvStack.toList[n] := by
      rw [Vector.getElem?_eq_getElem hn]
      rfl
    rw [foldStack, hget, Option.bind_some, ih (by omega),
      List.take_succ_eq_append_getElem hlt, List.foldr_append]
    rfl

/-- A closed chunk is merged as a binary counter carries. -/
theorem addChunkChainingValue_spec (l : List ChainingValue) (cv : ChainingValue)
    (hstack : s.stack = forest (parentValue cf s.keyWords s.flags) l)
    (hle : s.cvStackLen ≤ MAX_DEPTH)
    (hdepth : (forest (parentValue cf s.keyWords s.flags) (l ++ [cv])).length ≤ MAX_DEPTH) :
    ∃ s', s.addChunkChainingValue cf cv (l.length + 1) = some s' ∧
      s'.stack = forest (parentValue cf s.keyWords s.flags) (l ++ [cv]) ∧
      s'.cvStackLen ≤ MAX_DEPTH ∧ s'.keyWords = s.keyWords ∧ s'.flags = s.flags ∧
      s'.chunkState = s.chunkState := by
  induction hn : l.length using Nat.strong_induction_on generalizing s l cv with
  | _ n ih =>
    by_cases hodd : (n + 1) % 2 = 1
    · have heven : l.length = 2 * (n / 2) := by omega
      rw [forest_snoc _ heven] at hdepth ⊢
      have hlen : s.stack.length = s.cvStackLen := by
        simp only [stack, List.length_take, Vector.length_toList]
        omega
      rw [List.length_append, ← hstack, hlen, List.length_singleton] at hdepth
      obtain ⟨s', hpush, hpushed, hrest⟩ := pushStack_spec (s := s) (by omega) cv
      rw [addChunkChainingValue, dif_pos hodd, hpush]
      exact ⟨s', rfl, by rw [hpushed, hstack], hrest⟩
    · have hne : l ≠ [] := List.ne_nil_of_length_pos (by omega)
      obtain ⟨l, last, rfl⟩ : ∃ init last, l = init ++ [last] :=
        ⟨l.dropLast, l.getLast hne, (List.dropLast_append_getLast hne).symm⟩
      rw [List.length_append, List.length_singleton] at hn
      have heven : l.length = 2 * (n / 2) := by omega
      rw [forest_snoc _ heven] at hstack
      obtain ⟨s₁, hpop, hpopped, hle₁, hkey, hflags, hchunk⟩ := popStack_spec hstack hle
      have hmerge := forest_merge (parentValue cf s.keyWords s.flags) heven last cv
      have hpairs := length_pairUp (parentValue cf s.keyWords s.flags) heven
      rw [← hmerge] at hdepth ⊢
      rw [← hkey, ← hflags] at hdepth ⊢
      obtain ⟨s', hadd, hstack', hle', hkey', hflags', hchunk'⟩ := ih (n / 2) (by omega)
        (s := s₁) (pairUp (parentValue cf s₁.keyWords s₁.flags) l)
        (parentValue cf s₁.keyWords s₁.flags last cv)
        (by rw [hpopped, hkey, hflags, forest_pairUp _ heven]) hle₁ hdepth
        (by rw [hkey, hflags, hpairs])
      refine ⟨s', ?_, hstack', hle', hkey', hflags', hchunk'.trans hchunk⟩
      have hhalf : (n + 1) / 2 = n / 2 + 1 := by omega
      rw [addChunkChainingValue, dif_neg hodd, dif_neg (Nat.succ_ne_zero n), hpop,
        Option.bind_some, hhalf]
      exact hadd

/-! ### The hasher -/

variable (cf keyWords flags) in
/-- The state of a hasher that has absorbed some bytes: the stack is the forest of the
closed chunks, and the open chunk has absorbed the rest. -/
structure Absorbed (bytes : List UInt8) (s : Blake3) : Prop where
  keyWords_eq : s.keyWords = keyWords
  flags_eq : s.flags = flags
  closed_le : CHUNK_LEN * s.chunkState.chunkCounter ≤ bytes.length
  chunk : ChunkAbsorbed cf keyWords flags s.chunkState.chunkCounter
    (bytes.drop (CHUNK_LEN * s.chunkState.chunkCounter)) s.chunkState
  chunk_le : s.chunkState.len ≤ CHUNK_LEN
  chunk_open : s.chunkState.Open
  stack_eq : s.stack = forest (parentValue cf keyWords flags)
    (chunkValues cf keyWords flags s.chunkState.chunkCounter 0 bytes)
  stack_le : s.cvStackLen ≤ MAX_DEPTH

/-- The last chunk is the open one. -/
def Settled (s : Blake3) : Prop := s.chunkState.chunkCounter = 0 ∨ s.chunkState.len ≠ 0

variable {bytes : List UInt8}

theorem absorbed_newInternal : Absorbed cf keyWords flags [] (newInternal keyWords flags) where
  keyWords_eq := rfl
  flags_eq := rfl
  closed_le := Nat.zero_le _
  chunk := chunkAbsorbed_new 0
  chunk_le := Nat.zero_le _
  chunk_open := .inr rfl
  stack_eq := by simp [stack, newInternal, chunkValues, ChunkState.new]
  stack_le := Nat.zero_le _

theorem Absorbed.length_eq (h : Absorbed cf keyWords flags bytes s) :
    bytes.length = CHUNK_LEN * s.chunkState.chunkCounter + s.chunkState.len := by
  have hlen := h.chunk.length_eq
  have hle := h.closed_le
  rw [List.length_drop] at hlen
  omega

/-- Before the last of the chunks, a full chunk can be closed. -/
theorem Absorbed.closeChunk (h : Absorbed cf keyWords flags bytes s)
    (hfull : s.chunkState.len = CHUNK_LEN) (hlt : bytes.length < CHUNK_LEN * 2 ^ MAX_DEPTH) :
    ∃ s', s.closeChunk cf = some s' ∧ Absorbed cf keyWords flags bytes s' ∧
      s'.chunkState.len = 0 := by
  have hlen := h.length_eq
  obtain ⟨n, hn⟩ : ∃ n, s.chunkState.chunkCounter = n := ⟨_, rfl⟩
  have hchunk := h.chunk
  have hstack := h.stack_eq
  rw [hn] at hlen hchunk hstack
  have hcount : n + 1 < 2 ^ MAX_DEPTH := by
    unfold CHUNK_LEN MAX_DEPTH at *
    omega
  have hword : n + 1 < 2 ^ 64 := by
    unfold MAX_DEPTH at hcount
    omega
  have htake : (bytes.drop (CHUNK_LEN * n)).take CHUNK_LEN = bytes.drop (CHUNK_LEN * n) := by
    apply List.take_of_length_le
    rw [List.length_drop]
    omega
  have houtput : s.chunkState.output.chainingValue cf =
      (chunkOutput cf keyWords flags (0 + n)
        ((bytes.drop (CHUNK_LEN * n)).take CHUNK_LEN)).chainingValue cf := by
    rw [hchunk.output h.chunk_open, htake, Nat.zero_add]
  have hvalues := chunkValues_succ cf keyWords flags n 0 bytes
  rw [← houtput] at hvalues
  have hdepth : (forest (parentValue cf keyWords flags)
      (chunkValues cf keyWords flags (n + 1) 0 bytes)).length ≤ MAX_DEPTH :=
    length_forest_le _ (by rwa [length_chunkValues])
  rw [hvalues, ← h.keyWords_eq, ← h.flags_eq] at hdepth
  rw [← h.keyWords_eq, ← h.flags_eq] at hstack
  obtain ⟨s', hadd, hstack', hle', hkey', hflags', -⟩ :=
    addChunkChainingValue_spec _ _ hstack h.stack_le hdepth
  rw [length_chunkValues] at hadd
  unfold Blake3.closeChunk
  rw [hn, checkedAdd_of_lt hword, Option.bind_some, hadd, Option.map_some]
  have hempty : bytes.drop (CHUNK_LEN * (n + 1)) = [] :=
    List.drop_of_length_le (by rw [Nat.mul_succ]; omega)
  refine ⟨_, rfl, ?_, rfl⟩
  refine ⟨hkey'.trans h.keyWords_eq, hflags'.trans h.flags_eq, ?_, ?_, Nat.zero_le _, .inr rfl,
    ?_, hle'⟩
  · change CHUNK_LEN * (n + 1) ≤ bytes.length
    rw [Nat.mul_succ]
    omega
  · simp only [hkey', hflags', h.keyWords_eq, h.flags_eq]
    change ChunkAbsorbed cf keyWords flags (n + 1) (bytes.drop (CHUNK_LEN * (n + 1))) _
    rw [hempty]
    exact chunkAbsorbed_new (n + 1)
  · change s'.stack = forest (parentValue cf keyWords flags)
      (chunkValues cf keyWords flags (n + 1) 0 bytes)
    rw [hstack', hvalues, h.keyWords_eq, h.flags_eq]

/-- The open chunk absorbs input that fits. -/
theorem Absorbed.fillChunk (h : Absorbed cf keyWords flags bytes s) {input : List UInt8}
    (hne : input ≠ []) (hfits : s.chunkState.len + input.length ≤ CHUNK_LEN) :
    ∃ chunkState, s.chunkState.update cf input = some chunkState ∧
      Absorbed cf keyWords flags (bytes ++ input) { s with chunkState } ∧
      Settled { s with chunkState } := by
  have hlen := h.length_eq
  have hle := h.closed_le
  obtain ⟨c', hupdate, hc', hopen'⟩ := h.chunk.update h.chunk_open input
    (by rw [h.chunk.length_eq]; exact hfits)
  have hcounter : c'.chunkCounter = s.chunkState.chunkCounter := hc'.chunkCounter
  have hdrop : (bytes ++ input).drop (CHUNK_LEN * s.chunkState.chunkCounter) =
      bytes.drop (CHUNK_LEN * s.chunkState.chunkCounter) ++ input :=
    List.drop_append_of_le_length hle
  have hlength := hc'.length_eq
  have hpos := List.length_pos_iff.2 hne
  rw [List.length_append, List.length_drop] at hlength
  refine ⟨c', hupdate, ⟨h.keyWords_eq, h.flags_eq, ?_, ?_, ?_, hopen', ?_, h.stack_le⟩, ?_⟩
  · simp only [hcounter, List.length_append]
    omega
  · simp only [hcounter, hdrop]
    exact hc'
  · simp only
    omega
  · have hsame : chunkValues cf keyWords flags s.chunkState.chunkCounter 0 (bytes ++ input) =
        chunkValues cf keyWords flags s.chunkState.chunkCounter 0 bytes :=
      chunkValues_congr cf keyWords flags 0 (List.take_append_of_le_length hle)
    simp only [hcounter, hsame]
    exact h.stack_eq
  · right
    simp only
    omega

/-- The hasher absorbs any input up to the depth of its tree. -/
theorem Absorbed.update (h : Absorbed cf keyWords flags bytes s) (hsettled : Settled s)
    (input : List UInt8) (hle : bytes.length + input.length ≤ CHUNK_LEN * 2 ^ MAX_DEPTH) :
    ∃ s', s.update cf input = some s' ∧ Absorbed cf keyWords flags (bytes ++ input) s' ∧
      Settled s' := by
  induction hn : input.length using Nat.strong_induction_on generalizing bytes s input with
  | _ n ih =>
    by_cases hinput : input = []
    · subst hinput
      rw [Blake3.update, dif_pos rfl, List.append_nil]
      exact ⟨s, rfl, h, hsettled⟩
    · have hpos := List.length_pos_iff.2 hinput
      have hchunk := h.chunk_le
      -- the loop body first makes room in the chunk
      have hroom : ∃ s₁, (if s.chunkState.len = CHUNK_LEN then s.closeChunk cf else some s) =
          some s₁ ∧ Absorbed cf keyWords flags bytes s₁ ∧ s₁.chunkState.len < CHUNK_LEN := by
        by_cases hfull : s.chunkState.len = CHUNK_LEN
        · rw [if_pos hfull]
          obtain ⟨s₁, heq, hs₁, hzero⟩ := h.closeChunk hfull (by omega)
          exact ⟨s₁, heq, hs₁, by rw [hzero]; exact Nat.zero_lt_succ _⟩
        · rw [if_neg hfull]
          exact ⟨s, rfl, h, by omega⟩
      obtain ⟨s₁, heq, hs₁, hlt⟩ := hroom
      obtain ⟨t, ht⟩ : ∃ t, min (CHUNK_LEN - s₁.chunkState.len) input.length = t := ⟨_, rfl⟩
      have htpos : t ≠ 0 := by omega
      have htake : (input.take t).length = t := by
        rw [List.length_take]
        omega
      obtain ⟨chunkState, hfill, hs₂, hsettled₂⟩ := hs₁.fillChunk
        (List.ne_nil_of_length_pos (by omega : 0 < (input.take t).length)) (by omega)
      obtain ⟨s', hupdate, hs', hsettled'⟩ := ih (input.drop t).length
        (by rw [List.length_drop]; omega) hs₂ hsettled₂ (input.drop t)
        (by rw [List.length_append, htake, List.length_drop]; omega) rfl
      rw [List.append_assoc, List.take_append_drop] at hs'
      refine ⟨s', ?_, hs', hsettled'⟩
      rw [Blake3.update, dif_neg hinput, heq, Option.bind_some]
      simp only [ht, dif_neg htpos, hfill, Option.bind_some]
      exact hupdate

/-- A digest is the hash of the tree of everything absorbed so far. -/
theorem Absorbed.finalize (h : Absorbed cf keyWords flags bytes s) (hsettled : Settled s) :
    s.finalize cf = some (treeHash cf keyWords flags bytes) := by
  have hlen := h.length_eq
  have hchunk := h.chunk_le
  have htree := treeOutput_eq cf keyWords flags s.chunkState.chunkCounter 0 bytes
    (hsettled.imp_right fun hne => by omega) (by rw [Nat.mul_succ]; omega)
  rw [Nat.zero_add, ← h.chunk.output h.chunk_open, ← h.stack_eq] at htree
  rw [Blake3.finalize, foldStack_eq _ h.stack_le, h.keyWords_eq, h.flags_eq, Option.map_some,
    treeHash, htree]
  rfl

end Blake3

/-! ### Sessions -/

/-- What a caller does with a hasher. -/
inductive Call
  | update (input : List UInt8)
  | finalize

def Call.input : Call → List UInt8
  | update input => input
  | finalize => []

/-- The digests that a sequence of calls returns, and the state it ends in. -/
def session (cf : CompressionFunction) (s : Blake3) :
    List Call → Option (List ContentHash × Blake3)
  | [] => some ([], s)
  | .update input :: calls => (s.update cf input).bind fun s => session cf s calls
  | .finalize :: calls => (s.finalize cf).bind fun hash =>
    (session cf s calls).map fun (hashes, s) => (hash :: hashes, s)

/-- The tree hash of everything absorbed before each call for a digest. -/
def treeHashes (cf : CompressionFunction) (keyWords : ChainingValue) (flags : UInt32)
    (bytes : List UInt8) : List Call → List ContentHash
  | [] => []
  | .update input :: calls => treeHashes cf keyWords flags (bytes ++ input) calls
  | .finalize :: calls =>
    treeHash cf keyWords flags bytes :: treeHashes cf keyWords flags bytes calls

theorem session_eq {bytes : List UInt8} {s : Blake3}
    (h : Blake3.Absorbed cf keyWords flags bytes s) (hsettled : Blake3.Settled s)
    (calls : List Call)
    (hle : (bytes ++ calls.flatMap Call.input).length ≤ CHUNK_LEN * 2 ^ MAX_DEPTH) :
    ∃ s', session cf s calls = some (treeHashes cf keyWords flags bytes calls, s') ∧
      Blake3.Absorbed cf keyWords flags (bytes ++ calls.flatMap Call.input) s' ∧
        Blake3.Settled s' := by
  induction calls generalizing bytes s with
  | nil =>
    rw [List.flatMap_nil, List.append_nil]
    exact ⟨s, rfl, h, hsettled⟩
  | cons call calls ih =>
    cases call with
    | update input =>
      simp only [List.flatMap_cons, Call.input, ← List.append_assoc] at hle ⊢
      obtain ⟨s₁, hupdate, hs₁, hsettled₁⟩ := h.update hsettled input (by
        simp only [List.length_append] at hle
        omega)
      obtain ⟨s', hsession, hs', hsettled'⟩ := ih hs₁ hsettled₁ hle
      refine ⟨s', ?_, hs', hsettled'⟩
      rw [session, hupdate, Option.bind_some, hsession, treeHashes]
    | finalize =>
      simp only [List.flatMap_cons, Call.input, List.nil_append] at hle ⊢
      obtain ⟨s', hsession, hs', hsettled'⟩ := ih h hsettled hle
      refine ⟨s', ?_, hs', hsettled'⟩
      rw [session, h.finalize hsettled, Option.bind_some, hsession, Option.map_some, treeHashes]

/-- The domain hasher over several chunks. -/
theorem domainHasher_foldlM {bytes : List UInt8} {d : DomainHasher}
    (h : Blake3.Absorbed cf keyWords flags bytes d.inner) (hsettled : Blake3.Settled d.inner)
    (chunks : List (List UInt8))
    (hle : (bytes ++ chunks.flatten).length ≤ CHUNK_LEN * 2 ^ MAX_DEPTH) :
    (chunks.foldlM (DomainHasher.update cf) d).bind (DomainHasher.finalize cf) =
      some (treeHash cf keyWords flags (bytes ++ chunks.flatten)) := by
  induction chunks generalizing bytes d with
  | nil =>
    rw [List.flatten_nil, List.append_nil]
    exact h.finalize hsettled
  | cons chunk chunks ih =>
    simp only [List.flatten_cons, ← List.append_assoc] at hle ⊢
    obtain ⟨s₁, hupdate, hs₁, hsettled₁⟩ := h.update hsettled chunk (by
      simp only [List.length_append] at hle
      omega)
    have hchunk : d.update cf chunk = some ⟨s₁⟩ := by rw [DomainHasher.update, hupdate, Option.map_some]
    rw [List.foldlM_cons, hchunk]
    exact ih (d := ⟨s₁⟩) hs₁ hsettled₁ hle

theorem deriveKeyHasher_new {domain : String} {d : DomainHasher}
    (h : DomainHasher.new cf domain = some d) :
    ∃ keyWords, d.inner = Blake3.newInternal keyWords DERIVE_KEY_MATERIAL := by
  obtain ⟨s, hs, rfl⟩ := Option.map_eq_some_iff.1 h
  obtain ⟨context, -, hkey⟩ := Option.bind_eq_some_iff.1 hs
  obtain ⟨key, -, rfl⟩ := Option.map_eq_some_iff.1 hkey
  exact ⟨_, rfl⟩

/-- Updates of two and of three chunks, one of them empty, with a digest in between. -/
def splitCalls : List Call :=
  [.update (List.replicate 1500 97), .finalize, .update [], .update (List.replicate 2500 98)]

theorem length_splitCalls : (splitCalls.flatMap Call.input).length = 4000 := by
  simp only [splitCalls, List.flatMap_cons, List.flatMap_nil, Call.input, List.length_append,
    List.length_replicate, List.length_nil]

end FrankenSim.Blake3
