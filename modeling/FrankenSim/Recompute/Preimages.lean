import FrankenSim.Library.PrefixCodes
import FrankenSim.Recompute.WellFormed

/-!
# Identity preimages

The byte strings under a content hash are read back field by field: every
string, list and value of a record delimits itself. Two records or keys with
one preimage are therefore the same, and as long as the hash separates the
preimages in play, no operation of the store confuses two of them.
-/
namespace FrankenSim.Recompute

open Library

section Fields

theorem pushU64_eq (buf : List UInt8) (value : UInt64) :
    pushU64 buf value = buf ++ pushU64 [] value := by
  simp [pushU64]

theorem pushBytes_eq (buf value : List UInt8) : pushBytes buf value = buf ++ pushBytes [] value := by
  simp [pushBytes, pushU64]

theorem pushString_eq (buf : List UInt8) (value : String) :
    pushString buf value = buf ++ pushString [] value := pushBytes_eq buf (utf8 value)

def ParamValue.tag : ParamValue → UInt8
  | .f64 _ => 0
  | .int _ => 1
  | .str _ => 2

def ParamValue.payload : ParamValue → List UInt8
  | .f64 bits => pushU64 [] bits
  | .int i => pushU64 [] i.toUInt64
  | .str s => pushString [] s

def paramField (param : Param) : List UInt8 :=
  pushString [] param.1 ++ (param.2.tag :: param.2.payload)

theorem pushParam_eq (buf : List UInt8) (param : Param) :
    pushParam buf param = buf ++ paramField param := by
  obtain ⟨k, v⟩ := param
  cases v <;>
    simp [pushParam, paramField, pushString, pushBytes, pushU64, ParamValue.tag,
      ParamValue.payload]

theorem delimits_u64 : Delimits Set.univ (pushU64 []) := by
  have hbytes := delimits_leBytes 8
  apply hbytes.comp (g := UInt64.toNat)
  · intro value _
    exact value.toNat_lt
  · intro a _ b _ h
    exact UInt64.toNat_inj.1 h

/-- What fits a `usize` as a length. -/
def IsLength (n : ℕ) : Prop := n < 2 ^ 64

instance : DecidablePred IsLength := fun n => inferInstanceAs (Decidable (n < 2 ^ 64))

theorem delimits_length : Delimits {n | IsLength n} fun n => pushU64 [] (UInt64.ofNat n) := by
  apply delimits_u64.comp (g := UInt64.ofNat) fun _ _ => trivial
  intro n hn m hm h
  have hvalue := congrArg UInt64.toNat h
  rwa [UInt64.toNat_ofNat', UInt64.toNat_ofNat', Nat.mod_eq_of_lt hn, Nat.mod_eq_of_lt hm] at hvalue

theorem delimits_bytes : Delimits {v : List UInt8 | IsLength v.length} (pushBytes []) := by
  intro v hv w hw s t h
  simp only [pushBytes, List.append_assoc] at h
  obtain ⟨hlength, hrest⟩ := delimits_length hv hw h
  exact List.append_inj hrest hlength

theorem delimits_string : Delimits {s : String | IsLength (utf8 s).length} (pushString []) :=
  delimits_bytes.comp (fun _ hs => hs) fun _ _ _ _ h => utf8_injective h

theorem delimits_contentHash : Delimits Set.univ ContentHash.bytes := by
  apply Delimits.of_length (n := 32)
  · exact fun h _ => h.length_eq
  · rintro ⟨a, _⟩ _ ⟨b, _⟩ _ h
    cases h
    rfl

/-- A parameter value whose text has a length. -/
def ParamValue.InMemory : ParamValue → Prop
  | .f64 _ | .int _ => True
  | .str s => IsLength (utf8 s).length

def Param.InMemory (param : Param) : Prop :=
  IsLength (utf8 param.1).length ∧ param.2.InMemory

theorem delimits_value : Delimits {v | ParamValue.InMemory v} fun v => v.tag :: v.payload := by
  apply Delimits.tagged
  rintro tag v ⟨hv, hvtag⟩ w ⟨hw, hwtag⟩ s t h
  have htag : v.tag = w.tag := hvtag.trans hwtag.symm
  cases v with
  | f64 a =>
    cases w with
    | f64 b =>
      obtain ⟨rfl, hrest⟩ := delimits_u64 trivial trivial h
      exact ⟨rfl, hrest⟩
    | int b => exact absurd htag (by simp [ParamValue.tag])
    | str b => exact absurd htag (by simp [ParamValue.tag])
  | int a =>
    cases w with
    | f64 b => exact absurd htag (by simp [ParamValue.tag])
    | int b =>
      obtain ⟨hword, hrest⟩ := delimits_u64 trivial trivial h
      exact ⟨congrArg (fun word => ParamValue.int (Int64.ofUInt64 word)) hword, hrest⟩
    | str b => exact absurd htag (by simp [ParamValue.tag])
  | str a =>
    cases w with
    | f64 b => exact absurd htag (by simp [ParamValue.tag])
    | int b => exact absurd htag (by simp [ParamValue.tag])
    | str b =>
      obtain ⟨rfl, hrest⟩ := delimits_string hv hw h
      exact ⟨rfl, hrest⟩

theorem delimits_param : Delimits {p | Param.InMemory p} paramField :=
  (delimits_string.append delimits_value).mono fun _ hp => hp

end Fields

section Records

variable {F : Type} [FloatOps F]

/-- A record whose strings and lists have lengths, as every value of the
program does. -/
structure NodeRecord.InMemory (r : NodeRecord F) : Prop where
  opId : IsLength (utf8 r.opId).length
  inputHashes : IsLength r.inputHashes.length
  params : IsLength r.params.length
  param : ∀ p ∈ r.params, Param.InMemory p

/-- Records that agree on everything a skip may not ignore. -/
structure SameIdentity (r s : NodeRecord F) : Prop where
  opId : r.opId = s.opId
  inputHashes : r.inputHashes = s.inputHashes
  params : r.params.Perm s.params
  codeVersionHash : r.codeVersionHash = s.codeVersionHash
  rngSeed : r.rngSeed = s.rngSeed

/-- Records that agree on every field: the parameters up to their order, the
floats by bit pattern. -/
structure SameRecord (r s : NodeRecord F) : Prop extends SameIdentity r s where
  achievedError : FloatOps.toBits r.achievedError = FloatOps.toBits s.achievedError
  requiredTolerance : FloatOps.toBits r.requiredTolerance = FloatOps.toBits s.requiredTolerance

theorem NodeRecord.encoding_eq (r : NodeRecord F) (domain : String) :
    r.encoding domain = (utf8 domain ++ [0]) ++ (pushString [] r.opId ++
      (pushU64 [] (UInt64.ofNat r.inputHashes.length) ++ (r.inputHashes.flatMap ContentHash.bytes ++
      (pushU64 [] (UInt64.ofNat (sortParams r.params).length) ++
      ((sortParams r.params).flatMap paramField ++ (r.codeVersionHash.bytes ++
      (pushU64 [] r.rngSeed ++ (pushU64 [] (FloatOps.toBits r.achievedError) ++
      (pushU64 [] (FloatOps.toBits r.requiredTolerance) ++ []))))))))) := by
  simp only [NodeRecord.encoding]
  rw [pushU64_eq _ (FloatOps.toBits r.requiredTolerance), pushU64_eq _ (FloatOps.toBits r.achievedError),
    pushU64_eq _ r.rngSeed, foldl_append_eq_flatMap pushParam_eq,
    pushU64_eq _ (UInt64.ofNat (sortParams r.params).length),
    foldl_append_eq_flatMap (e := ContentHash.bytes) fun _ _ => rfl,
    pushU64_eq _ (UInt64.ofNat r.inputHashes.length), pushString_eq]
  simp only [List.append_assoc, List.append_nil]

theorem perm_sortParams (params : List Param) : (sortParams params).Perm params :=
  List.perm_insertionSort Param.le params

omit [FloatOps F] in
theorem NodeRecord.InMemory.sorted {r : NodeRecord F} (h : r.InMemory) :
    IsLength (sortParams r.params).length ∧ ∀ p ∈ sortParams r.params, Param.InMemory p := by
  rw [(perm_sortParams r.params).length_eq]
  exact ⟨h.params, fun p hp => h.param p ((perm_sortParams r.params).mem_iff.1 hp)⟩

/-- The preimage of a record determines every field of it. -/
theorem NodeRecord.encoding_injective {r s : NodeRecord F} {domain : String} (hr : r.InMemory)
    (hs : s.InMemory) (h : r.encoding domain = s.encoding domain) : SameRecord r s := by
  rw [NodeRecord.encoding_eq, NodeRecord.encoding_eq] at h
  obtain ⟨hop, h⟩ := delimits_string hr.opId hs.opId (List.append_cancel_left h)
  obtain ⟨hcount, h⟩ := delimits_length hr.inputHashes hs.inputHashes h
  obtain ⟨hinputs, h⟩ := delimits_contentHash.flatMap (fun _ _ => trivial) (fun _ _ => trivial)
    hcount h
  obtain ⟨hcount, h⟩ := delimits_length hr.sorted.1 hs.sorted.1 h
  obtain ⟨hparams, h⟩ := delimits_param.flatMap hr.sorted.2 hs.sorted.2 hcount h
  obtain ⟨hcode, h⟩ := delimits_contentHash trivial trivial h
  obtain ⟨hseed, h⟩ := delimits_u64 trivial trivial h
  obtain ⟨hachieved, h⟩ := delimits_u64 trivial trivial h
  obtain ⟨hrequired, -⟩ := delimits_u64 trivial trivial h
  have hperm : r.params.Perm s.params := by
    calc
      r.params.Perm (sortParams r.params) := (perm_sortParams r.params).symm
      _ = sortParams s.params := hparams
      List.Perm _ s.params := perm_sortParams s.params
  exact ⟨⟨hop, hinputs, hperm, hcode, hseed⟩, hachieved, hrequired⟩

end Records

section Keys

/-- A key whose strings and lists have lengths. -/
structure ComputationKey.InMemory (key : ComputationKey) : Prop where
  opId : IsLength (utf8 key.opId).length
  inputHashes : IsLength key.inputHashes.length
  params : IsLength key.params.length
  param : ∀ p ∈ key.params, IsLength (utf8 p.1).length ∧ IsLength (utf8 p.2).length

def capField : Option UInt64 → List UInt8
  | none => pushU64 [] 0
  | some iterations => pushU64 [] 1 ++ pushU64 [] iterations

def stringPairField (p : String × String) : List UInt8 := pushString [] p.1 ++ pushString [] p.2

theorem ComputationKey.encoding_eq (key : ComputationKey) :
    key.encoding = (pushString [] COMPUTATION_KEY_DOMAIN ++ pushU64 [] COMPUTATION_KEY_VERSION) ++
      (pushString [] key.opId ++ (pushU64 [] (UInt64.ofNat key.inputHashes.length) ++
      (key.inputHashes.flatMap (fun h => pushBytes [] h.bytes) ++
      (pushU64 [] (UInt64.ofNat key.params.length) ++ (key.params.flatMap stringPairField ++
      (pushString [] key.policyDeterminismClass.asStr ++
      (pushString [] key.policyToleranceRole.asStr ++ (pushU64 [] key.effectiveToleranceBits ++
      (pushU64 [] key.rngSeed ++ (pushBytes [] key.codeVersionHash.bytes ++
      (capField key.maxIterations ++ []))))))))))) := by
  have hcap : ∀ (buf : List UInt8) (cap : Option UInt64),
      (match cap with
        | none => pushU64 buf 0
        | some iterations => pushU64 (pushU64 buf 1) iterations) = buf ++ capField cap := by
    rintro buf (_ | iterations)
    · exact pushU64_eq buf 0
    · simp [capField, pushU64]
  have hpair : ∀ (buf : List UInt8) (p : String × String),
      pushString (pushString buf p.1) p.2 = buf ++ stringPairField p := by
    intro buf p
    rw [pushString_eq, pushString_eq buf, List.append_assoc]
    rfl
  simp only [ComputationKey.encoding]
  apply (hcap _ _).trans
  rw [pushBytes_eq _ key.codeVersionHash.bytes, pushU64_eq _ key.rngSeed,
    pushU64_eq _ key.effectiveToleranceBits, pushString_eq _ key.policyToleranceRole.asStr,
    pushString_eq _ key.policyDeterminismClass.asStr, foldl_append_eq_flatMap hpair,
    pushU64_eq _ (UInt64.ofNat key.params.length),
    foldl_append_eq_flatMap fun buf (h : ContentHash) => pushBytes_eq buf h.bytes,
    pushU64_eq _ (UInt64.ofNat key.inputHashes.length), pushString_eq _ key.opId,
    pushU64_eq _ COMPUTATION_KEY_VERSION]
  simp only [List.append_assoc, List.append_nil]

theorem DeterminismClass.asStr_injective : Function.Injective DeterminismClass.asStr := by
  intro a b h
  cases a <;> cases b <;> first | rfl | exact absurd h (by decide)

theorem ToleranceRole.asStr_injective : Function.Injective ToleranceRole.asStr := by
  intro a b h
  cases a <;> cases b <;> first | rfl | exact absurd h (by decide)

theorem delimits_determinismClass :
    Delimits Set.univ fun c : DeterminismClass => pushString [] c.asStr := by
  apply delimits_string.comp _ (DeterminismClass.asStr_injective.injOn)
  rintro (_ | _ | _) _ <;> (change IsLength _; decide +kernel)

theorem delimits_toleranceRole :
    Delimits Set.univ fun role : ToleranceRole => pushString [] role.asStr := by
  apply delimits_string.comp _ (ToleranceRole.asStr_injective.injOn)
  rintro (_ | _ | _ | _) _ <;> (change IsLength _; decide +kernel)

theorem delimits_hashField :
    Delimits Set.univ fun h : ContentHash => pushBytes [] h.bytes := by
  apply delimits_bytes.comp (g := ContentHash.bytes)
  · intro h _
    have hlength := h.length_eq
    exact (by omega : h.bytes.length < 2 ^ 64)
  · exact delimits_contentHash.injOn

theorem delimits_stringPair :
    Delimits {p : String × String | IsLength (utf8 p.1).length ∧ IsLength (utf8 p.2).length}
      stringPairField :=
  (delimits_string.append delimits_string).mono fun _ hp => hp

theorem delimits_cap : Delimits Set.univ capField := by
  rintro (_ | i) _ (_ | j) _ s t h
  · exact ⟨rfl, List.append_cancel_left h⟩
  · simp only [capField, List.append_assoc] at h
    exact absurd (delimits_u64 trivial trivial h).1 (by decide)
  · simp only [capField, List.append_assoc] at h
    exact absurd (delimits_u64 trivial trivial h).1 (by decide)
  · simp only [capField, List.append_assoc] at h
    obtain ⟨rfl, hrest⟩ := delimits_u64 trivial trivial (List.append_cancel_left h)
    exact ⟨rfl, hrest⟩

/-- The preimage of a key determines the key. -/
theorem ComputationKey.encoding_injective {key key' : ComputationKey} (hk : key.InMemory)
    (hk' : key'.InMemory) (h : key.encoding = key'.encoding) : key = key' := by
  rw [ComputationKey.encoding_eq, ComputationKey.encoding_eq] at h
  obtain ⟨hop, h⟩ := delimits_string hk.opId hk'.opId (List.append_cancel_left h)
  obtain ⟨hcount, h⟩ := delimits_length hk.inputHashes hk'.inputHashes h
  obtain ⟨hinputs, h⟩ := delimits_hashField.flatMap (fun _ _ => trivial) (fun _ _ => trivial)
    hcount h
  obtain ⟨hcount, h⟩ := delimits_length hk.params hk'.params h
  obtain ⟨hparams, h⟩ := delimits_stringPair.flatMap hk.param hk'.param hcount h
  obtain ⟨hclass, h⟩ := delimits_determinismClass trivial trivial h
  obtain ⟨hrole, h⟩ := delimits_toleranceRole trivial trivial h
  obtain ⟨hbits, h⟩ := delimits_u64 trivial trivial h
  obtain ⟨hseed, h⟩ := delimits_u64 trivial trivial h
  obtain ⟨hcode, h⟩ := delimits_hashField trivial trivial h
  obtain ⟨hcap, -⟩ := delimits_cap trivial trivial h
  cases key
  cases key'
  simp_all

end Keys

end FrankenSim.Recompute
