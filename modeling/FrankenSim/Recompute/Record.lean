import FrankenSim.Library.ExactFloat
import FrankenSim.Library.Words
import Mathlib.Data.List.Sort

/-!
# Node records and content identities

A node record is identified by the hash of its canonical byte encoding:
length-prefixed strings, floats as bit patterns, parameters sorted by key. The
hash function itself is a parameter of the development.
-/
namespace FrankenSim.Recompute

open Library

/-- A 256-bit content hash, ordered by its bytes. -/
structure ContentHash where
  bytes : List UInt8
  length_eq : bytes.length = 32
  deriving DecidableEq, Repr

theorem ContentHash.toNat_injective :
    Function.Injective fun h : ContentHash => h.bytes.map UInt8.toNat := by
  rintro ⟨a, ha⟩ ⟨b, hb⟩ h
  have hab : a = b := List.map_injective_iff.2 (fun _ _ h => UInt8.toNat_inj.1 h) h
  subst hab
  rfl

instance : LinearOrder ContentHash := LinearOrder.lift' _ ContentHash.toNat_injective

instance : Std.LawfulEqOrd ContentHash := ⟨fun h => compare_eq_iff_eq.1 h⟩

def hexDigit (d : ℕ) : Char := (Nat.digitChar d)

def ContentHash.toHex (h : ContentHash) : String :=
  String.ofList (h.bytes.flatMap fun b => [hexDigit (b.toNat / 16), hexDigit (b.toNat % 16)])

/-- The hash function over byte strings. -/
class HashBytes where
  hashBytes : List UInt8 → ContentHash

export HashBytes (hashBytes)

/-- A small concrete hash for runs on fixed inputs. -/
@[reducible] def toyHash : HashBytes where
  hashBytes bytes :=
    ⟨leBytes 8 (bytes.foldl (fun acc b => acc * 257 + b.toNat) 0) ++
      List.replicate 24 0, by simp [leBytes]⟩

def pushU64 (buf : List UInt8) (value : UInt64) : List UInt8 := buf ++ leBytes 8 value.toNat

def pushBytes (buf value : List UInt8) : List UInt8 :=
  pushU64 buf (UInt64.ofNat value.length) ++ value

def pushString (buf : List UInt8) (value : String) : List UInt8 := pushBytes buf (utf8 value)

inductive ParamValue
  | f64 (bits : UInt64)
  | int (i : Int64)
  | str (s : String)
  deriving DecidableEq, Repr

def ParamValue.cmp : ParamValue → ParamValue → Ordering
  | f64 a, f64 b => compare a.toNat b.toNat
  | f64 _, _ => .lt
  | int _, f64 _ => .gt
  | int a, int b => compare a.toInt b.toInt
  | int _, str _ => .lt
  | str a, str b => compare a b
  | str _, _ => .gt

abbrev Param := String × ParamValue

def Param.le (a b : Param) : Prop := ((compare a.1 b.1).then (a.2.cmp b.2)).isLE = true

instance : DecidableRel Param.le := fun _ _ => inferInstanceAs (Decidable (_ = true))

def sortParams (params : List Param) : List Param := params.insertionSort Param.le

def ARTIFACT_CONTENT_IDENTITY_VERSION : UInt64 := 1

def ARTIFACT_CONTENT_IDENTITY_DOMAIN : String := "org.frankensim.fs-recompute.artifact-content.v1"

def artifactContentEncoding (bytes : List UInt8) : List UInt8 :=
  let buf := pushString [] ARTIFACT_CONTENT_IDENTITY_DOMAIN
  let buf := pushU64 buf ARTIFACT_CONTENT_IDENTITY_VERSION
  pushBytes buf bytes

def artifactContentHash [HashBytes] (bytes : List UInt8) : ContentHash :=
  hashBytes (artifactContentEncoding bytes)

def NODE_RECORD_IDENTITY_DOMAIN : String := "fs-recompute-node-v2"

/-- The seven-field node record. -/
structure NodeRecord (F : Type*) where
  opId : String
  inputHashes : List ContentHash
  params : List Param
  codeVersionHash : ContentHash
  rngSeed : UInt64
  achievedError : F
  requiredTolerance : F
  deriving DecidableEq, Repr

def pushParam (buf : List UInt8) (param : Param) : List UInt8 :=
  let buf := pushString buf param.1
  match param.2 with
  | .f64 bits => pushU64 (buf ++ [0]) bits
  | .int i => buf ++ [1] ++ leBytes 8 i.toUInt64.toNat
  | .str s => pushString (buf ++ [2]) s

inductive PinReason
  | evidencePackage (name : String)
  | contract (name : String)
  deriving DecidableEq, Repr

def PinReason.cmp : PinReason → PinReason → Ordering
  | evidencePackage a, evidencePackage b => compare a b
  | evidencePackage _, contract _ => .lt
  | contract _, evidencePackage _ => .gt
  | contract a, contract b => compare a b

def PinReason.le (a b : PinReason) : Prop := (a.cmp b).isLE = true

instance : DecidableRel PinReason.le := fun _ _ => inferInstanceAs (Decidable (_ = true))

/-- A stored node: the immutable record with its artifact, pins, insertion
order and the slack burned by absorbed perturbations. -/
structure StoredNode (F : Type*) where
  record : NodeRecord F
  artifactHash : ContentHash
  pins : List PinReason
  seq : ℕ
  burned : F
  deriving DecidableEq, Repr

section

variable {F : Type*} [FloatOps F]

def NodeRecord.slack (record : NodeRecord F) : F := record.requiredTolerance - record.achievedError

/-- The canonical serialization under an identity domain. -/
def NodeRecord.encoding (record : NodeRecord F) (domain : String) : List UInt8 :=
  let buf := utf8 domain ++ [0]
  let buf := pushString buf record.opId
  let buf := pushU64 buf (UInt64.ofNat record.inputHashes.length)
  let buf := record.inputHashes.foldl (fun buf h => buf ++ h.bytes) buf
  let params := sortParams record.params
  let buf := pushU64 buf (UInt64.ofNat params.length)
  let buf := params.foldl pushParam buf
  let buf := buf ++ record.codeVersionHash.bytes
  let buf := pushU64 buf record.rngSeed
  let buf := pushU64 buf (FloatOps.toBits record.achievedError)
  pushU64 buf (FloatOps.toBits record.requiredTolerance)

def NodeRecord.contentHash [HashBytes] (record : NodeRecord F) : ContentHash :=
  hashBytes (record.encoding NODE_RECORD_IDENTITY_DOMAIN)

def StoredNode.effectiveSlack (node : StoredNode F) : F := node.record.slack - node.burned

end

/-- A record of an operation without inputs or parameters. -/
def plainRecord (opId : String) (achieved required : ℚ) : NodeRecord ExactFloat where
  opId := opId
  inputHashes := []
  params := []
  codeVersionHash := toyHash.hashBytes []
  rngSeed := 0
  achievedError := .fin achieved
  requiredTolerance := .fin required

end FrankenSim.Recompute
