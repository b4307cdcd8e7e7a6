import FrankenSim.Blake3.Hasher
import FrankenSim.Library.MerkleStack

/-!
# The tree definition of the hash

A chunk is hashed block by block, with `CHUNK_START` on the first block and
`CHUNK_END` on the last one. An inner node splits its chunks at the largest power of
two strictly below their number. Only the root is compressed with `ROOT`.
-/
namespace FrankenSim.Blake3

open Library

variable (cf : CompressionFunction) (keyWords : ChainingValue) (flags : UInt32)

def pad (bytes : List UInt8) : List UInt8 := bytes ++ List.replicate (BLOCK_LEN - bytes.length) 0

/-- Only the first block of a chunk carries `CHUNK_START`. -/
def blockFlags (index : ℕ) : UInt32 := if index = 0 then flags ||| CHUNK_START else flags

/-- The blocks of a chunk from some block on; the last one stays pending. -/
def blockChain (counter : ℕ) (cv : ChainingValue) (index : ℕ) (bytes : List UInt8) : Output :=
  if bytes.length ≤ BLOCK_LEN then {
    inputChainingValue := cv
    blockWords := wordsFromBlock (pad bytes)
    counter
    blockLen := bytes.length
    flags := blockFlags flags index ||| CHUNK_END }
  else
    blockChain counter
      (first8Words (cf cv (wordsFromBlock (bytes.take BLOCK_LEN)) counter BLOCK_LEN
        (blockFlags flags index)))
      (index + 1) (bytes.drop BLOCK_LEN)
termination_by bytes.length
decreasing_by
  rw [List.length_drop]
  unfold BLOCK_LEN at *
  omega

def chunkOutput (counter : ℕ) (bytes : List UInt8) : Output :=
  blockChain cf flags counter keyWords 0 bytes

def chunkCount (length : ℕ) : ℕ := (length + (CHUNK_LEN - 1)) / CHUNK_LEN

/-- The tree over the chunks of some bytes, whose first chunk has a given counter. -/
def treeOutput (counter : ℕ) (bytes : List UInt8) : Output :=
  if bytes.length ≤ CHUNK_LEN then chunkOutput cf keyWords flags counter bytes
  else
    let left := splitPoint (chunkCount bytes.length)
    parentOutput keyWords flags
      ((treeOutput counter (bytes.take (CHUNK_LEN * left))).chainingValue cf)
      ((treeOutput (counter + left) (bytes.drop (CHUNK_LEN * left))).chainingValue cf)
termination_by bytes.length
decreasing_by
  · have hlt := splitPoint_lt (n := chunkCount bytes.length)
      (by unfold chunkCount CHUNK_LEN at *; omega)
    rw [List.length_take]
    unfold chunkCount CHUNK_LEN at *
    omega
  · have hpos := splitPoint_pos (chunkCount bytes.length)
    rw [List.length_drop]
    unfold CHUNK_LEN at *
    omega

def treeHash (bytes : List UInt8) : ContentHash :=
  (treeOutput cf keyWords flags 0 bytes).rootHash cf

/-! ### Chunks as leaves -/

/-- The node over two chaining values. -/
def parentValue (left right : ChainingValue) : ChainingValue :=
  (parentOutput keyWords flags left right).chainingValue cf

/-- The chaining values of the first full chunks of some bytes. -/
def chunkValues : ℕ → ℕ → List UInt8 → List ChainingValue
  | 0, _, _ => []
  | n + 1, counter, bytes =>
    (chunkOutput cf keyWords flags counter (bytes.take CHUNK_LEN)).chainingValue cf ::
      chunkValues n (counter + 1) (bytes.drop CHUNK_LEN)

@[simp] theorem length_chunkValues (n counter : ℕ) (bytes : List UInt8) :
    (chunkValues cf keyWords flags n counter bytes).length = n := by
  induction n generalizing counter bytes with
  | zero => rfl
  | succ n ih => simp [chunkValues, ih]

theorem chunkValues_add (n m counter : ℕ) (bytes : List UInt8) :
    chunkValues cf keyWords flags (n + m) counter bytes =
      chunkValues cf keyWords flags n counter bytes ++
        chunkValues cf keyWords flags m (counter + n) (bytes.drop (CHUNK_LEN * n)) := by
  induction n generalizing counter bytes with
  | zero => simp [chunkValues]
  | succ n ih =>
    rw [Nat.succ_add, chunkValues, chunkValues, ih, List.drop_drop, List.cons_append]
    have hcounter : counter + 1 + n = counter + (n + 1) := by omega
    have hdrop : CHUNK_LEN + CHUNK_LEN * n = CHUNK_LEN * (n + 1) := by ring
    rw [hcounter, hdrop]

/-- The chunks only depend on their own bytes. -/
theorem chunkValues_congr {n : ℕ} (counter : ℕ) {bytes bytes' : List UInt8}
    (h : bytes.take (CHUNK_LEN * n) = bytes'.take (CHUNK_LEN * n)) :
    chunkValues cf keyWords flags n counter bytes =
      chunkValues cf keyWords flags n counter bytes' := by
  induction n generalizing counter bytes bytes' with
  | zero => rfl
  | succ n ih =>
    have htake : bytes.take CHUNK_LEN = bytes'.take CHUNK_LEN := by
      have hprefix := congrArg (List.take CHUNK_LEN) h
      rwa [List.take_take, List.take_take, min_eq_left (Nat.le_mul_of_pos_right _ (by omega))]
        at hprefix
    have hdrop : (bytes.drop CHUNK_LEN).take (CHUNK_LEN * n) =
        (bytes'.drop CHUNK_LEN).take (CHUNK_LEN * n) := by
      have hsuffix := congrArg (List.drop CHUNK_LEN) h
      rwa [Nat.mul_succ, Nat.add_comm, List.drop_take, List.drop_take, Nat.add_sub_cancel_left]
        at hsuffix
    rw [chunkValues, chunkValues, htake, ih (counter + 1) hdrop]

theorem chunkValues_succ (n counter : ℕ) (bytes : List UInt8) :
    chunkValues cf keyWords flags (n + 1) counter bytes =
      chunkValues cf keyWords flags n counter bytes ++
        [(chunkOutput cf keyWords flags (counter + n)
          ((bytes.drop (CHUNK_LEN * n)).take CHUNK_LEN)).chainingValue cf] := by
  rw [chunkValues_add]
  rfl

/-- The tree folds the forest of the closed chunks onto the last chunk. -/
theorem treeOutput_eq (n counter : ℕ) (bytes : List UInt8)
    (hclosed : n = 0 ∨ CHUNK_LEN * n < bytes.length) (hle : bytes.length ≤ CHUNK_LEN * (n + 1)) :
    treeOutput cf keyWords flags counter bytes =
      (forest (parentValue cf keyWords flags)
        (chunkValues cf keyWords flags n counter bytes)).foldr
        (fun cv output => parentOutput keyWords flags cv (output.chainingValue cf))
        (chunkOutput cf keyWords flags (counter + n) (bytes.drop (CHUNK_LEN * n))) := by
  induction n using Nat.strong_induction_on generalizing counter bytes with
  | _ n ih =>
    rcases Nat.eq_zero_or_pos n with rfl | hn
    · rw [treeOutput, if_pos (by omega)]
      simp [chunkValues]
    · have hlt : CHUNK_LEN * n < bytes.length := by omega
      have hlong : ¬bytes.length ≤ CHUNK_LEN := by
        have hmul : CHUNK_LEN * 1 ≤ CHUNK_LEN * n := Nat.mul_le_mul_left _ hn
        omega
      have hcount : chunkCount bytes.length = n + 1 := by
        unfold chunkCount CHUNK_LEN at *
        omega
      obtain ⟨s, hs⟩ : ∃ s, splitPoint (n + 1) = s := ⟨_, rfl⟩
      have hpos := splitPoint_pos (n + 1)
      have hsplit := splitPoint_lt (n := n + 1) (by omega)
      rw [hs] at hpos hsplit
      -- the left part is full
      have hleft := ih (s - 1) (by omega) counter (bytes.take (CHUNK_LEN * s))
        (by unfold CHUNK_LEN at *; rw [List.length_take]; omega)
        (by unfold CHUNK_LEN at *; rw [List.length_take]; omega)
      have hvalue : (treeOutput cf keyWords flags counter
          (bytes.take (CHUNK_LEN * s))).chainingValue cf =
          tree (parentValue cf keyWords flags)
            (chunkValues cf keyWords flags s counter bytes) := by
        rw [hleft, close_foldr_forest (parentValue cf keyWords flags) fun _ _ => rfl]
        have hfull : chunkValues cf keyWords flags s counter bytes =
            chunkValues cf keyWords flags (s - 1 + 1) counter (bytes.take (CHUNK_LEN * s)) := by
          rw [Nat.sub_add_cancel hpos]
          exact chunkValues_congr cf keyWords flags counter (by rw [List.take_take, min_self])
        have hlast : ((bytes.take (CHUNK_LEN * s)).drop (CHUNK_LEN * (s - 1))).take CHUNK_LEN =
            (bytes.take (CHUNK_LEN * s)).drop (CHUNK_LEN * (s - 1)) := by
          apply List.take_of_length_le
          rw [List.length_drop, List.length_take]
          unfold CHUNK_LEN
          omega
        rw [hfull, chunkValues_succ, hlast]
      have hright := ih (n - s) (by omega) (counter + s) (bytes.drop (CHUNK_LEN * s))
        (by unfold CHUNK_LEN at *; rw [List.length_drop]; omega)
        (by unfold CHUNK_LEN at *; rw [List.length_drop]; omega)
      have hsum := chunkValues_add cf keyWords flags s (n - s) counter bytes
      rw [Nat.add_sub_cancel' (by omega : s ≤ n)] at hsum
      have hne : chunkValues cf keyWords flags n counter bytes ≠ [] :=
        List.ne_nil_of_length_pos (by rw [length_chunkValues]; exact hn)
      rw [treeOutput, if_neg hlong, hcount, hs]
      simp only [hvalue, hright]
      rw [forest_of_ne _ hne, length_chunkValues, hs, hsum,
        List.take_left' (length_chunkValues ..), List.drop_left' (length_chunkValues ..),
        List.foldr_cons, List.drop_drop]
      have hcounter : counter + s + (n - s) = counter + n := by omega
      have hdrop : CHUNK_LEN * s + CHUNK_LEN * (n - s) = CHUNK_LEN * n := by
        rw [← Nat.mul_add, Nat.add_sub_cancel' (by omega : s ≤ n)]
      rw [hcounter, hdrop]

end FrankenSim.Blake3
