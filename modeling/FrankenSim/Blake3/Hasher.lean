import FrankenSim.Blake3.Compression

/-!
# The streaming hasher

A chunk keeps its last block open, and the hasher its last chunk, until more input
arrives. A closed chunk is merged with the completed subtrees on the stack. Updates
return `none` where the code would panic or not terminate: a counter of eight bits
that wraps, an index outside the stack, or a loop that makes no progress.
-/
namespace FrankenSim.Blake3

open Library

variable (cf : CompressionFunction)

/-! ### Chunks -/

/-- The state of one chunk. -/
structure ChunkState where
  chainingValue : ChainingValue
  chunkCounter : ℕ
  block : List UInt8
  blockLen : ℕ
  blocksCompressed : ℕ
  flags : UInt32

namespace ChunkState

def new (keyWords : ChainingValue) (chunkCounter : ℕ) (flags : UInt32) : ChunkState where
  chainingValue := keyWords
  chunkCounter := chunkCounter
  block := List.replicate BLOCK_LEN 0
  blockLen := 0
  blocksCompressed := 0
  flags := flags

def len (self : ChunkState) : ℕ := BLOCK_LEN * self.blocksCompressed + self.blockLen

def startFlag (self : ChunkState) : UInt32 :=
  if self.blocksCompressed = 0 then self.flags ||| CHUNK_START else self.flags

/-- The full block is compressed; the next one starts empty. -/
def compressBlock (self : ChunkState) : Option ChunkState :=
  (checkedAdd 8 self.blocksCompressed 1).map fun blocksCompressed =>
    { self with
      chainingValue := first8Words (cf self.chainingValue (wordsFromBlock self.block)
        self.chunkCounter BLOCK_LEN self.startFlag)
      blocksCompressed
      block := List.replicate BLOCK_LEN 0
      blockLen := 0 }

/-- The bytes are copied behind the bytes of the block. -/
def fill (self : ChunkState) (bytes : List UInt8) : Option ChunkState :=
  (checkedAdd 8 self.blockLen bytes.length).map fun blockLen =>
    { self with
      block := self.block.take self.blockLen ++ bytes ++
        self.block.drop (self.blockLen + bytes.length)
      blockLen }

/-- A full block is compressed only once more input arrives. -/
def update (self : ChunkState) (input : List UInt8) : Option ChunkState :=
  if hinput : input = [] then some self
  else
    (if self.blockLen = BLOCK_LEN then self.compressBlock cf else some self).bind fun self =>
      let take := min (BLOCK_LEN - self.blockLen) input.length
      if htake : take = 0 then none
      else (self.fill (input.take take)).bind fun self => update self (input.drop take)
termination_by input.length
decreasing_by
  have hpos := List.length_pos_iff.2 hinput
  rw [List.length_drop]
  omega

def output (self : ChunkState) : Output where
  inputChainingValue := self.chainingValue
  blockWords := wordsFromBlock self.block
  counter := self.chunkCounter
  blockLen := self.blockLen
  flags := self.startFlag ||| CHUNK_END

end ChunkState

/-! ### The tree -/

def MAX_DEPTH : ℕ := 54

structure Blake3 where
  keyWords : ChainingValue
  flags : UInt32
  chunkState : ChunkState
  cvStack : Vector ChainingValue MAX_DEPTH
  cvStackLen : ℕ

namespace Blake3

def newInternal (keyWords : ChainingValue) (flags : UInt32) : Blake3 where
  keyWords := keyWords
  flags := flags
  chunkState := ChunkState.new keyWords 0 flags
  cvStack := Vector.replicate MAX_DEPTH (Vector.replicate 8 0)
  cvStackLen := 0

def new : Blake3 := newInternal IV 0

def pushStack (self : Blake3) (cv : ChainingValue) : Option Blake3 :=
  if h : self.cvStackLen < MAX_DEPTH then
    (checkedAdd 8 self.cvStackLen 1).map fun cvStackLen =>
      { self with cvStack := self.cvStack.set self.cvStackLen cv, cvStackLen }
  else none

def popStack (self : Blake3) : Option (ChainingValue × Blake3) :=
  if self.cvStackLen = 0 then none
  else (self.cvStack[self.cvStackLen - 1]?).map fun cv =>
    (cv, { self with cvStackLen := self.cvStackLen - 1 })

/-- A chunk count with some trailing zero bits has as many completed subtrees to merge
before the chaining value of the chunk is pushed. -/
def addChunkChainingValue (self : Blake3) (newCv : ChainingValue) (totalChunks : ℕ) :
    Option Blake3 :=
  if hodd : totalChunks % 2 = 1 then self.pushStack newCv
  else if hzero : totalChunks = 0 then none
  else self.popStack.bind fun (cv, self) =>
    addChunkChainingValue self
      ((parentOutput self.keyWords self.flags cv newCv).chainingValue cf) (totalChunks / 2)
termination_by totalChunks

/-- The full chunk is closed; the next one starts empty. -/
def closeChunk (self : Blake3) : Option Blake3 :=
  (checkedAdd 64 self.chunkState.chunkCounter 1).bind fun totalChunks =>
    (self.addChunkChainingValue cf (self.chunkState.output.chainingValue cf) totalChunks).map
      fun self => { self with chunkState := ChunkState.new self.keyWords totalChunks self.flags }

/-- A full chunk is closed only once more input arrives. -/
def update (self : Blake3) (input : List UInt8) : Option Blake3 :=
  if hinput : input = [] then some self
  else
    (if self.chunkState.len = CHUNK_LEN then self.closeChunk cf else some self).bind fun self =>
      let take := min (CHUNK_LEN - self.chunkState.len) input.length
      if htake : take = 0 then none
      else (self.chunkState.update cf (input.take take)).bind fun chunkState =>
        update { self with chunkState } (input.drop take)
termination_by input.length
decreasing_by
  have hpos := List.length_pos_iff.2 hinput
  rw [List.length_drop]
  omega

/-- The subtrees on the stack are the left siblings of the open node, from the top down. -/
def foldStack (self : Blake3) : ℕ → Output → Option Output
  | 0, output => some output
  | remaining + 1, output => (self.cvStack[remaining]?).bind fun cv =>
    foldStack self remaining (parentOutput self.keyWords self.flags cv (output.chainingValue cf))

def finalize (self : Blake3) : Option ContentHash :=
  (self.foldStack cf self.cvStackLen self.chunkState.output).map (Output.rootHash cf)

end Blake3

def hashBytes (bytes : List UInt8) : Option ContentHash :=
  (Blake3.new.update cf bytes).bind (Blake3.finalize cf)

/-! ### Domains -/

/-- The digest of the domain is the key of the payload. -/
def deriveKeyHasher (domain : String) : Option Blake3 :=
  ((Blake3.newInternal IV DERIVE_KEY_CONTEXT).update cf (utf8 domain)).bind fun contextHasher =>
    (contextHasher.finalize cf).map fun contextKey =>
      Blake3.newInternal (Vector.ofFn fun i : Fin 8 => leWord contextKey i) DERIVE_KEY_MATERIAL

structure DomainHasher where
  inner : Blake3

namespace DomainHasher

def new (domain : String) : Option DomainHasher := (deriveKeyHasher cf domain).map DomainHasher.mk

def update (self : DomainHasher) (chunk : List UInt8) : Option DomainHasher :=
  (self.inner.update cf chunk).map DomainHasher.mk

def finalize (self : DomainHasher) : Option ContentHash := self.inner.finalize cf

end DomainHasher

def hashDomain (domain : String) (payload : List UInt8) : Option ContentHash :=
  (DomainHasher.new cf domain).bind fun materialHasher =>
    (materialHasher.update cf payload).bind (DomainHasher.finalize cf)

end FrankenSim.Blake3
