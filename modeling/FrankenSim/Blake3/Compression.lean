import FrankenSim.Library.Words

/-!
# The compression function and its outputs

Blocks of 64 bytes are compressed into chaining values. An output is a pending
compression, whose use as an inner node or as the root is decided later. Everything
above the compression function takes it as a parameter.
-/
namespace FrankenSim.Blake3

open Library

abbrev ChainingValue := Vector UInt32 8

abbrev BlockWords := Vector UInt32 16

def IV : ChainingValue :=
  #v[0x6A09E667, 0xBB67AE85, 0x3C6EF372, 0xA54FF53A, 0x510E527F, 0x9B05688C, 0x1F83D9AB, 0x5BE0CD19]

def MSG_PERMUTATION : Vector (Fin 16) 16 := #v[2, 6, 3, 10, 7, 0, 4, 13, 1, 11, 12, 5, 9, 14, 15, 8]

def BLOCK_LEN : ℕ := 64

def CHUNK_LEN : ℕ := 1024

def CHUNK_START : UInt32 := 1

def CHUNK_END : UInt32 := 2

def PARENT : UInt32 := 4

def ROOT : UInt32 := 8

def DERIVE_KEY_CONTEXT : UInt32 := 32

def DERIVE_KEY_MATERIAL : UInt32 := 64

/-! ### The compression function -/

def rotateRight (x k : UInt32) : UInt32 := (x >>> k) ||| (x <<< (32 - k))

/-- The quarter-round mixing function. -/
def g (state : BlockWords) (a b c d : Fin 16) (mx my : UInt32) : BlockWords :=
  let state := state.set a (state[a] + state[b] + mx)
  let state := state.set d (rotateRight (state[d] ^^^ state[a]) 16)
  let state := state.set c (state[c] + state[d])
  let state := state.set b (rotateRight (state[b] ^^^ state[c]) 12)
  let state := state.set a (state[a] + state[b] + my)
  let state := state.set d (rotateRight (state[d] ^^^ state[a]) 8)
  let state := state.set c (state[c] + state[d])
  state.set b (rotateRight (state[b] ^^^ state[c]) 7)

/-- Four column mixes, then four diagonal mixes. -/
def round (state m : BlockWords) : BlockWords :=
  let state := g state 0 4 8 12 m[0] m[1]
  let state := g state 1 5 9 13 m[2] m[3]
  let state := g state 2 6 10 14 m[4] m[5]
  let state := g state 3 7 11 15 m[6] m[7]
  let state := g state 0 5 10 15 m[8] m[9]
  let state := g state 1 6 11 12 m[10] m[11]
  let state := g state 2 7 8 13 m[12] m[13]
  g state 3 4 9 14 m[14] m[15]

def permute (m : BlockWords) : BlockWords := MSG_PERMUTATION.map fun src => m[src]

/-- A round for each block; the block is permuted between two rounds. -/
def rounds : ℕ → BlockWords → BlockWords → BlockWords
  | 0, state, _ => state
  | n + 1, state, block => rounds n (round state block) (permute block)

/-- Seven rounds, and the feed-forward of the two halves. -/
def compress (chainingValue : ChainingValue) (blockWords : BlockWords) (counter blockLen : ℕ)
    (flags : UInt32) : BlockWords :=
  let start : BlockWords := chainingValue ++ #v[IV[0], IV[1], IV[2], IV[3], UInt32.ofNat counter,
    UInt32.ofNat (counter / 2 ^ 32), UInt32.ofNat blockLen, flags]
  let state := rounds 7 start blockWords
  Vector.ofFn fun i : Fin 16 =>
    if h : i.val < 8 then state[i] ^^^ state[i.val + 8]
    else state[i] ^^^ chainingValue[i.val - 8]

/-- The chaining value, the words of the block, the counter, the length of the block
and the flags. -/
abbrev CompressionFunction :=
  ChainingValue → BlockWords → ℕ → ℕ → UInt32 → BlockWords

/-- The little-endian word at a position of a list of bytes. -/
def leWord (bytes : List UInt8) (i : ℕ) : UInt32 :=
  UInt32.ofNat (((bytes.drop (4 * i)).take 4).foldr (fun byte n => byte.toNat + 256 * n) 0)

def wordsFromBlock (block : List UInt8) : BlockWords := Vector.ofFn fun i : Fin 16 => leWord block i

def first8Words (words : BlockWords) : ChainingValue := Vector.ofFn fun i : Fin 8 => words[i]

abbrev ContentHash := List UInt8

/-! ### Outputs -/

/-- A pending compression. -/
structure Output where
  inputChainingValue : ChainingValue
  blockWords : BlockWords
  counter : ℕ
  blockLen : ℕ
  flags : UInt32

namespace Output

variable (cf : CompressionFunction)

def chainingValue (self : Output) : ChainingValue :=
  first8Words (cf self.inputChainingValue self.blockWords self.counter self.blockLen self.flags)

/-- The root is compressed with counter 0. -/
def rootHash (self : Output) : ContentHash :=
  let words := cf self.inputChainingValue self.blockWords 0 self.blockLen (self.flags ||| ROOT)
  (words.toList.take 8).flatMap fun word => leBytes 4 word.toNat

end Output

/-- Parent nodes always use counter 0. -/
def parentOutput (keyWords : ChainingValue) (flags : UInt32)
    (leftChildCv rightChildCv : ChainingValue) : Output where
  inputChainingValue := keyWords
  blockWords := leftChildCv ++ rightChildCv
  counter := 0
  blockLen := BLOCK_LEN
  flags := flags ||| PARENT

end FrankenSim.Blake3
