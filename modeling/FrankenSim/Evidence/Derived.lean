import FrankenSim.Evidence.Identity
import FrankenSim.Library.PrefixCodes

/-!
# Faithfulness of derived identities

A derived identity starts with a reserved name and the label of its derivation. Its
operands follow, each with its length in front, or one digest of them when they are
unusable or too long. No leaf can take such an identity, and it determines the
derivation and its operands.
-/
namespace FrankenSim.Evidence

open Library Recompute

/-- Why an identity cannot enter as a leaf. -/
def colorLeafIdentityReason (value : String) : Option String :=
  (colorIdentityReason value).or
    (if "derived:".toList.isPrefixOf value.toList then some "derived-identity-requires-lineage"
    else none)

section Derivations

/-- The derivations of pairs. -/
inductive Derivation
  | composed
  | composedVerified
  | composedValidated
  | datasets
  | datasetsVerified
  | disjointRegimes
  | regimeExit
  | modelCards
  deriving DecidableEq

def Derivation.label : Derivation → String
  | composed => "composed"
  | composedVerified => "composed-verified"
  | composedValidated => "composed-validated"
  | datasets => "datasets"
  | datasetsVerified => "datasets-verified"
  | disjointRegimes => "disjoint-regimes"
  | regimeExit => "regime-exit"
  | modelCards => "model-cards"

def Derivation.separator : Derivation → String
  | regimeExit => "@"
  | _ => "+"

theorem Derivation.label_usable (d : Derivation) :
    IdentityText d.label ∧ d.label.utf8ByteSize ≤ 128 ∧ ':' ∉ d.label.toList := by
  cases d <;> decide

theorem Derivation.separator_usable (d : Derivation) : IdentityText d.separator := by
  cases d <;> decide

theorem Derivation.label_injective : Function.Injective label := by
  intro d d' h
  cases d <;> cases d' <;> first | rfl | exact absurd h (by decide)

end Derivations

section Digests

variable [HashDomain]

def Derivation.identity (d : Derivation) (left right : String) : String :=
  boundedPairIdentity d.label left d.separator right

/-- The digest of one value under a label. -/
def compactIdentity (hashLabel value : String) : String :=
  let labelHash := hashDomain COMPOSED_IDENTITY_DOMAIN (utf8 hashLabel)
  let valueHash := hashDomain COMPOSED_IDENTITY_DOMAIN (utf8 value)
  DERIVED_IDENTITY_PREFIX ++ hashLabel ++ ":" ++
    (hashDomain COMPOSED_IDENTITY_DOMAIN (labelHash.bytes ++ valueHash.bytes)).toHex

/-- What the digest of a pair hashes. -/
def pairPreimages (hashLabel left right : String) : Set (List UInt8) :=
  {bytes | bytes ∈ [utf8 hashLabel, utf8 left, utf8 right,
    (hashDomain COMPOSED_IDENTITY_DOMAIN (utf8 hashLabel)).bytes ++
      (hashDomain COMPOSED_IDENTITY_DOMAIN (utf8 left)).bytes ++
      (hashDomain COMPOSED_IDENTITY_DOMAIN (utf8 right)).bytes]}

/-- The domain hash separates the byte strings in play. -/
def SeparatesInputs (inputs : Set (List UInt8)) : Prop :=
  Set.InjOn (hashDomain COMPOSED_IDENTITY_DOMAIN) inputs

omit [HashDomain] in
theorem not_mem_toHex (h : ContentHash) : ':' ∉ h.toHex.toList := by
  have hdigit : ∀ d < 16, hexDigit d ≠ ':' := by decide
  intro hmem
  rw [ContentHash.toHex, String.toList_ofList, List.mem_flatMap] at hmem
  obtain ⟨b, -, hb⟩ := hmem
  have hlt := b.toNat_lt
  rcases List.mem_pair.1 hb with hb | hb
  · exact hdigit _ (by omega) hb.symm
  · exact hdigit _ (by omega) hb.symm

omit [HashDomain] in
theorem toHex_injective : Function.Injective ContentHash.toHex := by
  have hdigit : ∀ d < 16, ∀ d' < 16, hexDigit d = hexDigit d' → d = d' := by decide
  have hbyte : Delimits Set.univ fun b : UInt8 =>
      [hexDigit (b.toNat / 16), hexDigit (b.toNat % 16)] := by
    apply @Delimits.of_length _ _ _ _ 2 fun _ _ => rfl
    intro a _ b _ h
    have ha := a.toNat_lt
    have hb := b.toNat_lt
    obtain ⟨hhigh, hlow⟩ := List.cons.inj h
    have hhigh := hdigit _ (by omega) _ (by omega) hhigh
    have hlow := hdigit _ (by omega) _ (by omega) (List.singleton_inj.1 hlow)
    exact UInt8.toNat_inj.1 (by omega)
  rintro ⟨a, ha⟩ ⟨b, hb⟩ h
  have hchars := congrArg String.toList h
  rw [ContentHash.toHex, ContentHash.toHex, String.toList_ofList, String.toList_ofList] at hchars
  obtain ⟨rfl, -⟩ := hbyte.flatMap (fun _ _ => trivial) (fun _ _ => trivial) (ha.trans hb.symm)
    (congrArg (· ++ []) hchars)
  rfl

omit [HashDomain] in
theorem not_mem_toString (n : ℕ) : ':' ∉ (toString n).toList := by
  intro hmem
  have hdigit : ':'.isDigit := by
    apply @Nat.isDigit_of_mem_toDigits 10 n _ (by decide) (by decide)
    simpa [Nat.repr] using hmem
  exact absurd hdigit (by decide)

omit [HashDomain] in
theorem toString_injective {n m : ℕ} (h : (toString n).toList = (toString m).toList) : n = m := by
  have hdigits : ∀ n : ℕ, (toString n).toList = Nat.toDigits 10 n := fun n => by simp [Nat.repr]
  rw [hdigits, hdigits] at h
  have hvalue := congrArg (fun digits => Nat.ofDigitChars 10 digits 0) h
  simpa only [Nat.ofDigitChars_ten_toDigits] using hvalue

/-- The readable tail of a derived identity. -/
def readableTail (left separator right : String) : List Char :=
  (toString left.utf8ByteSize).toList ++ [':'] ++ (left.toList ++ (separator.toList ++
    ((toString right.utf8ByteSize).toList ++ [':'] ++ right.toList)))

/-- The tail of a derived identity behind its label. -/
theorem toList_identity (d : Derivation) (left right : String) :
    ∃ tail, (d.identity left right).toList =
        DERIVED_IDENTITY_PREFIX.toList ++ (d.label.toList ++ [':'] ++ tail) ∧
      ((colorIdentityReason left = none ∧ colorIdentityReason right = none ∧
          tail = readableTail left d.separator right) ∨
        tail = (hashDomain COMPOSED_IDENTITY_DOMAIN
          ((hashDomain COMPOSED_IDENTITY_DOMAIN (utf8 d.label)).bytes ++
            (hashDomain COMPOSED_IDENTITY_DOMAIN (utf8 left)).bytes ++
            (hashDomain COMPOSED_IDENTITY_DOMAIN (utf8 right)).bytes)).toHex.toList) := by
  have hcolon : ":".toList = [':'] := rfl
  unfold Derivation.identity boundedPairIdentity
  dsimp only
  split_ifs with h
  · refine ⟨_, ?_, Or.inl ⟨h.1, h.2.1, rfl⟩⟩
    simp only [String.toList_append, readableTail, hcolon, List.append_assoc]
  · refine ⟨_, ?_, Or.inr rfl⟩
    simp only [pairDigest, String.toList_append, hcolon, List.append_assoc]

/-- The label and the tail are read back. -/
theorem label_tail {d d' : Derivation} {left right left' right' : String} {tail tail' : List Char}
    (htail : (d.identity left right).toList =
      DERIVED_IDENTITY_PREFIX.toList ++ (d.label.toList ++ [':'] ++ tail))
    (htail' : (d'.identity left' right').toList =
      DERIVED_IDENTITY_PREFIX.toList ++ (d'.label.toList ++ [':'] ++ tail'))
    (h : d.identity left right = d'.identity left' right') : d = d' ∧ tail = tail' := by
  have hchars := htail.symm.trans ((congrArg String.toList h).trans htail')
  obtain ⟨hlabel, heq⟩ := Delimits.terminated ':' d.label_usable.2.2 d'.label_usable.2.2
    (List.append_cancel_left hchars)
  exact ⟨Derivation.label_injective (String.toList_inj.1 hlabel), heq⟩

omit [HashDomain] in
/-- Readable operands are read back by their lengths. -/
theorem readable_operands {left right left' right' separator : String}
    (hleft : colorIdentityReason left = none) (hleft' : colorIdentityReason left' = none)
    (h : readableTail left separator right = readableTail left' separator right') :
    left = left' ∧ right = right' := by
  have hlength : ∀ {value : String}, colorIdentityReason value = none →
      value.utf8ByteSize = value.toList.length := fun hvalue =>
    IdentityText.utf8ByteSize_eq (colorIdentityReason_eq_none.1 hvalue).2.2.1
  obtain ⟨hcount, hrest⟩ := Delimits.terminated ':' (not_mem_toString _) (not_mem_toString _) h
  have hsize : left.utf8ByteSize = left'.utf8ByteSize :=
    toString_injective hcount
  rw [hlength hleft, hlength hleft'] at hsize
  obtain ⟨hchars, hrest⟩ := List.append_inj hrest hsize
  obtain ⟨-, hright⟩ := Delimits.terminated ':' (not_mem_toString _) (not_mem_toString _)
    (List.append_cancel_left hrest)
  exact ⟨String.toList_inj.1 hchars, String.toList_inj.1 hright⟩

/-- A digest is read back as what it hashes. -/
theorem digest_operands {d : Derivation} {left right left' right' : String}
    (hfree : SeparatesInputs
      (pairPreimages d.label left right ∪ pairPreimages d.label left' right'))
    (h : (hashDomain COMPOSED_IDENTITY_DOMAIN
          ((hashDomain COMPOSED_IDENTITY_DOMAIN (utf8 d.label)).bytes ++
            (hashDomain COMPOSED_IDENTITY_DOMAIN (utf8 left)).bytes ++
            (hashDomain COMPOSED_IDENTITY_DOMAIN (utf8 right)).bytes)).toHex =
        (hashDomain COMPOSED_IDENTITY_DOMAIN
          ((hashDomain COMPOSED_IDENTITY_DOMAIN (utf8 d.label)).bytes ++
            (hashDomain COMPOSED_IDENTITY_DOMAIN (utf8 left')).bytes ++
            (hashDomain COMPOSED_IDENTITY_DOMAIN (utf8 right')).bytes)).toHex) :
    left = left' ∧ right = right' := by
  have hext : ∀ {a b : ContentHash}, a.bytes = b.bytes → a = b := by
    rintro ⟨a, ha⟩ ⟨b, hb⟩ rfl
    rfl
  have hbytes := hfree (Or.inl (by simp [pairPreimages])) (Or.inr (by simp [pairPreimages]))
    (toHex_injective h)
  rw [List.append_assoc, List.append_assoc] at hbytes
  have hrest := List.append_cancel_left hbytes
  obtain ⟨hleft, hright⟩ := List.append_inj hrest
    (by rw [ContentHash.length_eq, ContentHash.length_eq])
  constructor
  · apply utf8_injective
    exact hfree (Or.inl (by simp [pairPreimages])) (Or.inr (by simp [pairPreimages])) (hext hleft)
  · apply utf8_injective
    exact hfree (Or.inl (by simp [pairPreimages])) (Or.inr (by simp [pairPreimages])) (hext hright)

/-- A derived identity determines its derivation and its operands. -/
theorem identity_operands {d d' : Derivation} {left right left' right' : String}
    (hfree : SeparatesInputs
      (pairPreimages d.label left right ∪ pairPreimages d'.label left' right'))
    (h : d.identity left right = d'.identity left' right') :
    d = d' ∧ left = left' ∧ right = right' := by
  obtain ⟨tail, htext, hform⟩ := toList_identity d left right
  obtain ⟨tail', htext', hform'⟩ := toList_identity d' left' right'
  obtain ⟨rfl, rfl⟩ := label_tail htext htext' h
  refine ⟨rfl, ?_⟩
  have hmark : ∀ left right, ':' ∈ readableTail left d.separator right := by
    intro left right
    simp [readableTail]
  rcases hform with ⟨hleft, -, htail⟩ | htail
  · rcases hform' with ⟨hleft', -, htail'⟩ | htail'
    · exact readable_operands hleft hleft' (htail.symm.trans htail')
    · have hcolon := hmark left right
      rw [← htail, htail'] at hcolon
      exact absurd hcolon (not_mem_toHex _)
  · rcases hform' with ⟨-, -, htail'⟩ | htail'
    · have hcolon := hmark left' right'
      rw [← htail', htail] at hcolon
      exact absurd hcolon (not_mem_toHex _)
    · exact digest_operands hfree (String.toList_inj.1 (htail.symm.trans htail'))

/-- A derived identity is in the reserved namespace. -/
theorem colorLeafIdentityReason_identity (d : Derivation) (left right : String) :
    colorLeafIdentityReason (d.identity left right) ≠ none := by
  obtain ⟨tail, htext, -⟩ := toList_identity d left right
  have hreserved : "derived:".toList.isPrefixOf (d.identity left right).toList = true := by
    rw [htext]
    rfl
  rw [colorLeafIdentityReason, hreserved]
  simp

/-- The digest of one value has a label of its own. -/
theorem identity_ne_compactIdentity (d : Derivation) (left right value : String) :
    d.identity left right ≠ compactIdentity "invalid-card-set" value := by
  intro h
  obtain ⟨tail, htext, -⟩ := toList_identity d left right
  have hcompact : (compactIdentity "invalid-card-set" value).toList =
      DERIVED_IDENTITY_PREFIX.toList ++ ("invalid-card-set".toList ++ [':'] ++
        (hashDomain COMPOSED_IDENTITY_DOMAIN
          ((hashDomain COMPOSED_IDENTITY_DOMAIN (utf8 "invalid-card-set")).bytes ++
            (hashDomain COMPOSED_IDENTITY_DOMAIN (utf8 value)).bytes)).toHex.toList) := by
    simp only [compactIdentity, String.toList_append, List.append_assoc]
    rfl
  have hchars := htext.symm.trans ((congrArg String.toList h).trans hcompact)
  obtain ⟨hlabel, -⟩ := Delimits.terminated ':' d.label_usable.2.2 (by decide)
    (List.append_cancel_left hchars)
  have hne : d.label.toList ≠ "invalid-card-set".toList := by cases d <;> decide
  exact hne hlabel

/-- Derived identities are usable, in the reserved namespace, and determine what they were
derived from. -/
theorem derived_identities_faithful (d : Derivation) (left right : String) :
    (d.identity left right).utf8ByteSize ≤ MAX_COLOR_IDENTITY_BYTES ∧
      colorIdentityReason (d.identity left right) = none ∧
      colorLeafIdentityReason (d.identity left right) ≠ none ∧
      (∀ value, d.identity left right ≠ compactIdentity "invalid-card-set" value) ∧
      ∀ (d' : Derivation) (left' right' : String),
        SeparatesInputs (pairPreimages d.label left right ∪ pairPreimages d'.label left' right') →
        d.identity left right = d'.identity left' right' →
        d.label = d'.label ∧ left = left' ∧ right = right' := by
  have husable : colorIdentityReason (d.identity left right) = none :=
    colorIdentityReason_boundedPairIdentity d.label_usable.1 d.label_usable.2.1
      d.separator_usable left right
  refine ⟨(colorIdentityReason_eq_none.1 husable).1, husable,
    colorLeafIdentityReason_identity d left right, identity_ne_compactIdentity d left right, ?_⟩
  intro d' left' right' hfree h
  obtain ⟨rfl, hoperands⟩ := identity_operands hfree h
  exact ⟨rfl, hoperands⟩

end Digests

section Run

/-- A small concrete hash for a run on fixed inputs. -/
@[reducible] def toyDomain : HashDomain where
  hashDomain _ bytes := toyHash.hashBytes bytes

/-- A blank operand is told from a missing one. -/
theorem derived_identities_faithful_blank :
    let _ := toyDomain
    Derivation.composed.identity "" "a" ≠ Derivation.composed.identity "a" "" := by
  intro _ h
  let pair (left right : String) : List (List UInt8) :=
    [utf8 "composed", utf8 left, utf8 right,
      (toyHash.hashBytes (utf8 "composed")).bytes ++ (toyHash.hashBytes (utf8 left)).bytes ++
        (toyHash.hashBytes (utf8 right)).bytes]
  have hlist : ∀ x ∈ pair "" "a" ++ pair "a" "", ∀ y ∈ pair "" "a" ++ pair "a" "",
      toyHash.hashBytes x = toyHash.hashBytes y → x = y := by decide +kernel
  have hfree : SeparatesInputs (pairPreimages "composed" "" "a" ∪ pairPreimages "composed" "a" "") :=
    fun x hx y hy hxy => hlist x (List.mem_append.2 hx) y (List.mem_append.2 hy) hxy
  obtain ⟨-, hleft, -⟩ :=
    (derived_identities_faithful .composed "" "a").2.2.2.2 .composed "a" "" hfree h
  exact absurd hleft (by decide)

end Run

end FrankenSim.Evidence
