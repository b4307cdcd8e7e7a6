import FrankenSim.Library.Decimals
import FrankenSim.Library.Refusals
import FrankenSim.Recompute.Rows

/-!
# The snapshot envelope

A snapshot is a header of six lines and one row for every stored node. Admission
checks the header line by line before it exposes the rows. Because no row contains
a line break, the rows that are admitted are the rows that were written.
-/
namespace FrankenSim.Recompute

open Library

def SNAPSHOT_FORMAT_VERSION : ℕ := 3

def SNAPSHOT_FORMAT_DOMAIN : Text := "fsrecompute".toList

def nodeRecordIdentityVersionIsSupported (declared : ℕ) : Bool :=
  declared == NODE_RECORD_IDENTITY_VERSION

def artifactContentIdentityVersionIsSupported (declared : ℕ) : Bool :=
  declared == ARTIFACT_CONTENT_IDENTITY_VERSION.toNat

inductive SnapshotIdentity
  | snapshotFormat
  | nodeRecord
  | artifactContent
  deriving DecidableEq, Repr

inductive SnapshotAdmissionError
  | legacyV2 (declared : ℕ)
  | staleVersion (identity : SnapshotIdentity) (declared supported : ℕ)
  | futureVersion (identity : SnapshotIdentity) (declared supported : ℕ)
  | domainMismatch (identity : SnapshotIdentity) (declared supported : Text)
  | malformedHeader (line : ℕ) (reason : String)
  | nonCanonicalHeader (line : ℕ) (expected found : Text)
  deriving DecidableEq, Repr

structure AdmittedSnapshot where
  rows : List Text
  deriving DecidableEq, Repr

section Admission

def headerLine (line : Option Text) (lineNumber : ℕ) : Except SnapshotAdmissionError Text :=
  match line with
  | some line => .ok line
  | none => .error (.malformedHeader lineNumber "required header line is missing")

def parseCanonicalVersion (raw : Text) (lineNumber : ℕ) (line canonicalStart : Text) :
    Except SnapshotAdmissionError ℕ :=
  if raw.isEmpty || !raw.all Char.isDigit then
    .error (.malformedHeader lineNumber "identity version must be an unsigned decimal integer")
  else
    let declared := digitsValue raw
    if U32_MAX < declared then
      .error (.malformedHeader lineNumber "identity version is outside the u32 range")
    else
      let expected := canonicalStart ++ decimalText declared
      if line ≠ expected then .error (.nonCanonicalHeader lineNumber expected line)
      else .ok declared

def parseSnapshotFormatVersion (line : Text) : Except SnapshotAdmissionError ℕ :=
  match splitOnce " v".toList line with
  | none =>
    .error (.nonCanonicalHeader 1 (SNAPSHOT_FORMAT_DOMAIN ++ " v<canonical-u32>".toList) line)
  | some (domain, rawVersion) =>
    if domain ≠ SNAPSHOT_FORMAT_DOMAIN then
      .error (.domainMismatch .snapshotFormat domain SNAPSHOT_FORMAT_DOMAIN)
    else parseCanonicalVersion rawVersion 1 line (SNAPSHOT_FORMAT_DOMAIN ++ " v".toList)

def parseIdentityVersion (line : Text) (lineNumber : ℕ) (key : Text) :
    Except SnapshotAdmissionError ℕ :=
  match stripPrefix key line with
  | none => .error (.nonCanonicalHeader lineNumber (key ++ "<canonical-u32>".toList) line)
  | some rawVersion => parseCanonicalVersion rawVersion lineNumber line key

def validateSupportedVersion (identity : SnapshotIdentity) (declared supported : ℕ)
    (isSupported : Bool) : Except SnapshotAdmissionError Unit :=
  if isSupported then .ok ()
  else if identity = .snapshotFormat ∧ declared = 2 then .error (.legacyV2 declared)
  else if declared < supported then .error (.staleVersion identity declared supported)
  else if supported < declared then .error (.futureVersion identity declared supported)
  else
    .error (.malformedHeader 1 "version support predicate disagrees with its declared version")

def validateIdentityDomain (line : Text) (lineNumber : ℕ) (key : Text)
    (identity : SnapshotIdentity) (supported : Text) : Except SnapshotAdmissionError Unit :=
  match stripPrefix key line with
  | none => .error (.nonCanonicalHeader lineNumber (key ++ "<identity-domain>".toList) line)
  | some declared =>
    if declared ≠ supported then .error (.domainMismatch identity declared supported) else .ok ()

def nodeVersionKey : Text := "node_identity_version=".toList

def nodeDomainKey : Text := "node_identity_domain=".toList

def artifactVersionKey : Text := "artifact_identity_version=".toList

def artifactDomainKey : Text := "artifact_identity_domain=".toList

/-- The checks of the first five lines and of the separator, in this order. -/
def admitSnapshot (snapshot : Text) : Except SnapshotAdmissionError AdmittedSnapshot := do
  let lines := splitN '\n' 7 snapshot
  let formatLine ← headerLine lines[0]? 1
  let formatVersion ← parseSnapshotFormatVersion formatLine
  validateSupportedVersion .snapshotFormat formatVersion SNAPSHOT_FORMAT_VERSION
    (formatVersion == SNAPSHOT_FORMAT_VERSION)
  let nodeVersionLine ← headerLine lines[1]? 2
  let nodeVersion ← parseIdentityVersion nodeVersionLine 2 nodeVersionKey
  validateSupportedVersion .nodeRecord nodeVersion NODE_RECORD_IDENTITY_VERSION
    (nodeRecordIdentityVersionIsSupported nodeVersion)
  let nodeDomainLine ← headerLine lines[2]? 3
  validateIdentityDomain nodeDomainLine 3 nodeDomainKey .nodeRecord
    NODE_RECORD_IDENTITY_DOMAIN.toList
  let artifactVersionLine ← headerLine lines[3]? 4
  let artifactVersion ← parseIdentityVersion artifactVersionLine 4 artifactVersionKey
  validateSupportedVersion .artifactContent artifactVersion ARTIFACT_CONTENT_IDENTITY_VERSION.toNat
    (artifactContentIdentityVersionIsSupported artifactVersion)
  let artifactDomainLine ← headerLine lines[4]? 5
  validateIdentityDomain artifactDomainLine 5 artifactDomainKey .artifactContent
    ARTIFACT_CONTENT_IDENTITY_DOMAIN.toList
  let separator ← headerLine lines[5]? 6
  if separator ≠ "--".toList then throw (.nonCanonicalHeader 6 "--".toList separator)
  match lines[6]? with
  | none => throw (.malformedHeader 6 "the -- separator must be newline-terminated")
  | some rest => return ⟨splitTerminator '\n' rest⟩

end Admission

section Writing

variable {F : Type} [FloatOps F] [ScientificForm F] [HashBytes]

def writeln (out line : Text) : Text := out ++ line ++ ['\n']

/-- The row of a stored node. -/
def StoredNode.row (node : StoredNode F) : Text :=
  node.record.toRowWithArtifactIdentity node.artifactHash

def Store.snapshot (self : Store F) : Text :=
  let out := writeln [] (SNAPSHOT_FORMAT_DOMAIN ++ " v".toList ++ decimalText SNAPSHOT_FORMAT_VERSION)
  let out := writeln out (nodeVersionKey ++ decimalText NODE_RECORD_IDENTITY_VERSION)
  let out := writeln out (nodeDomainKey ++ NODE_RECORD_IDENTITY_DOMAIN.toList)
  let out := writeln out
    (artifactVersionKey ++ decimalText ARTIFACT_CONTENT_IDENTITY_VERSION.toNat)
  let out := writeln out (artifactDomainKey ++ ARTIFACT_CONTENT_IDENTITY_DOMAIN.toList)
  let out := out ++ "--\n".toList
  self.nodes.toList.foldl (fun out e => writeln out e.2.row) out

end Writing

/-- The six lines of the header. -/
def headerLines : List Text :=
  ["fsrecompute v3".toList, "node_identity_version=2".toList,
    "node_identity_domain=fs-recompute-node-v2".toList, "artifact_identity_version=1".toList,
    "artifact_identity_domain=org.frankensim.fs-recompute.artifact-content.v1".toList,
    "--".toList]

section RoundTrip

theorem newline_not_mem_headerLines : ∀ line ∈ headerLines, '\n' ∉ line := by decide

theorem headerLine_ok {line : Option Text} {lineNumber : ℕ} {text : Text} :
    headerLine line lineNumber = .ok text ↔ line = some text := by
  cases line <;> simp [headerLine]

theorem eq_of_parseCanonicalVersion {raw line start : Text} {lineNumber declared : ℕ}
    (h : parseCanonicalVersion raw lineNumber line start = .ok declared) :
    line = start ++ decimalText declared := by
  unfold parseCanonicalVersion at h
  dsimp only at h
  split_ifs at h with hraw hrange hcanonical
  rw [← Except.ok.inj h]
  exact not_not.1 hcanonical

theorem eq_of_parseIdentityVersion {line key : Text} {lineNumber declared : ℕ}
    (h : parseIdentityVersion line lineNumber key = .ok declared) :
    line = key ++ decimalText declared := by
  unfold parseIdentityVersion at h
  split at h
  · cases h
  · exact eq_of_parseCanonicalVersion h

theorem eq_of_parseSnapshotFormatVersion {line : Text} {declared : ℕ}
    (h : parseSnapshotFormatVersion line = .ok declared) :
    line = SNAPSHOT_FORMAT_DOMAIN ++ " v".toList ++ decimalText declared := by
  unfold parseSnapshotFormatVersion at h
  split at h
  · cases h
  · split_ifs at h
    exact eq_of_parseCanonicalVersion h

theorem validateSupportedVersion_ok {identity : SnapshotIdentity} {declared supported : ℕ}
    {isSupported : Bool}
    (h : validateSupportedVersion identity declared supported isSupported = .ok ()) :
    isSupported = true := by
  unfold validateSupportedVersion at h
  split_ifs at h with hsupported
  exact hsupported

theorem eq_of_validateIdentityDomain {line key supported : Text} {lineNumber : ℕ}
    {identity : SnapshotIdentity}
    (h : validateIdentityDomain line lineNumber key identity supported = .ok ()) :
    line = key ++ supported := by
  unfold validateIdentityDomain at h
  split at h
  · cases h
  case h_2 declared hstrip =>
    split_ifs at h with hdeclared
    rw [eq_append_of_stripPrefix hstrip, not_not.1 hdeclared]

/-- The first six parts of an admitted text are the header, and there is a seventh. -/
theorem lines_of_admitSnapshot {snapshot : Text} {admitted : AdmittedSnapshot}
    (h : admitSnapshot snapshot = .ok admitted) :
    ∃ rest, (∀ i < 6, (splitN '\n' 7 snapshot)[i]? = headerLines[i]?) ∧
      (splitN '\n' 7 snapshot)[6]? = some rest ∧ admitted.rows = splitTerminator '\n' rest := by
  unfold admitSnapshot at h
  obtain ⟨formatLine, h₀, h⟩ := bind_eq_ok h
  obtain ⟨formatVersion, hformat, h⟩ := bind_eq_ok h
  obtain ⟨⟨⟩, hv₀, h⟩ := bind_eq_ok h
  obtain ⟨nodeVersionLine, h₁, h⟩ := bind_eq_ok h
  obtain ⟨nodeVersion, hnode, h⟩ := bind_eq_ok h
  obtain ⟨⟨⟩, hv₁, h⟩ := bind_eq_ok h
  obtain ⟨nodeDomainLine, h₂, h⟩ := bind_eq_ok h
  obtain ⟨⟨⟩, hnodeDomain, h⟩ := bind_eq_ok h
  obtain ⟨artifactVersionLine, h₃, h⟩ := bind_eq_ok h
  obtain ⟨artifactVersion, hartifact, h⟩ := bind_eq_ok h
  obtain ⟨⟨⟩, hv₃, h⟩ := bind_eq_ok h
  obtain ⟨artifactDomainLine, h₄, h⟩ := bind_eq_ok h
  obtain ⟨⟨⟩, hartifactDomain, h⟩ := bind_eq_ok h
  obtain ⟨separator, h₅, h⟩ := bind_eq_ok h
  rw [headerLine_ok] at h₀ h₁ h₂ h₃ h₄ h₅
  have hseparator : separator = "--".toList := by
    by_contra hne
    rw [if_pos hne] at h
    cases h
  rw [if_neg (not_not.2 hseparator)] at h
  dsimp only at h
  cases hrest : (splitN '\n' 7 snapshot)[6]? with
  | none =>
    rw [hrest] at h
    cases h
  | some rest =>
    rw [hrest] at h
    refine ⟨rest, ?_, rfl, (congrArg AdmittedSnapshot.rows (Except.ok.inj h)).symm⟩
    intro i hi
    interval_cases i
    · rw [h₀, eq_of_parseSnapshotFormatVersion hformat,
        eq_of_beq (validateSupportedVersion_ok hv₀)]
      decide
    · rw [h₁, eq_of_parseIdentityVersion hnode, eq_of_beq (validateSupportedVersion_ok hv₁)]
      decide
    · rw [h₂, eq_of_validateIdentityDomain hnodeDomain]
      decide
    · rw [h₃, eq_of_parseIdentityVersion hartifact, eq_of_beq (validateSupportedVersion_ok hv₃)]
      decide
    · rw [h₄, eq_of_validateIdentityDomain hartifactDomain]
      decide
    · rw [h₅, hseparator]
      decide

/-- An admitted text starts with the header. -/
theorem eq_of_admitSnapshot {snapshot : Text} {admitted : AdmittedSnapshot}
    (h : admitSnapshot snapshot = .ok admitted) :
    ∃ rest, snapshot = terminated '\n' headerLines ++ rest ∧
      admitted.rows = splitTerminator '\n' rest := by
  obtain ⟨rest, hheader, hrest, hrows⟩ := lines_of_admitSnapshot h
  refine ⟨rest, eq_of_splitN (n := 6) rfl ?_, hrows⟩
  apply List.ext_getElem?
  intro i
  rcases Nat.lt_trichotomy i 6 with hlt | rfl | hgt
  · rw [hheader i hlt, List.getElem?_append_left hlt]
  · exact hrest
  · have hlength : (splitN '\n' (6 + 1) snapshot).length ≤ 7 := splitN_length_le 7 snapshot
    rw [List.getElem?_eq_none (by omega), List.getElem?_eq_none (show 7 ≤ i by omega)]

/-- A header with terminated rows is admitted. -/
theorem admitSnapshot_terminated {rows : List Text} (h : ∀ row ∈ rows, '\n' ∉ row) :
    admitSnapshot (terminated '\n' headerLines ++ terminated '\n' rows) = .ok ⟨rows⟩ := by
  have hlines : splitN '\n' 7 (terminated '\n' headerLines ++ terminated '\n' rows) =
      headerLines ++ [terminated '\n' rows] :=
    splitN_terminated newline_not_mem_headerLines _
  have hrows := splitTerminator_terminated h
  generalize terminated '\n' rows = rest at hlines hrows
  unfold admitSnapshot
  rw [hlines, ← hrows]
  rfl

theorem foldl_writeln {α : Type} (line : α → Text) (items : List α) (out : Text) :
    items.foldl (fun out item => writeln out (line item)) out =
      out ++ terminated '\n' (items.map line) := by
  induction items generalizing out with
  | nil => simp [terminated]
  | cons item items ih =>
    rw [List.foldl_cons, ih]
    simp [terminated, writeln]

variable {F : Type} [FloatOps F] [ScientificForm F] [HashBytes]

/-- A snapshot is the header and the rows of the nodes, every line terminated. -/
theorem Store.snapshot_eq (self : Store F) :
    self.snapshot = terminated '\n' headerLines ++
      terminated '\n' (self.nodes.toList.map fun e => e.2.row) := by
  unfold Store.snapshot
  rw [foldl_writeln]
  exact congrArg (· ++ _) (by decide +kernel)

/-- A snapshot is admitted, and its rows are the rows of the nodes, in the order of
their keys and one for each; whatever is admitted starts with the header. -/
theorem snapshot_round_trip :
    (∀ store : Store F,
      admitSnapshot store.snapshot = .ok ⟨store.nodes.toList.map fun e => e.2.row⟩ ∧
      store.snapshot = terminated '\n' headerLines ++
        terminated '\n' (store.nodes.toList.map fun e => e.2.row) ∧
      (store.nodes.toList.map Prod.fst).Pairwise (· < ·)) ∧
    ∀ text admitted, admitSnapshot text = .ok admitted →
      terminated '\n' headerLines <+: text := by
  constructor
  · intro store
    refine ⟨?_, store.snapshot_eq, ?_⟩
    · rw [store.snapshot_eq]
      apply admitSnapshot_terminated
      intro row hrow
      obtain ⟨e, -, rfl⟩ := List.mem_map.1 hrow
      exact newline_not_mem_row e.2.record e.2.artifactHash
    · have hordered := Std.TreeMap.ordered_keys_toList (t := store.nodes)
      rw [List.pairwise_map]
      exact hordered.imp fun hlt => compare_lt_iff_lt.1 hlt
  · intro text admitted h
    obtain ⟨rest, rfl, -⟩ := eq_of_admitSnapshot h
    exact List.prefix_append _ _

end RoundTrip

/-- An operation whose name has a line break and a quotation mark. -/
theorem snapshot_round_trip_line_break :
    letI := toyHash
    let store := ((Store.new ExactFloat).put (plainRecord "a\n\"b" 1 2) []).2
    admitSnapshot store.snapshot = .ok ⟨store.nodes.toList.map fun e => e.2.row⟩ ∧
      terminated '\n' headerLines <+: store.snapshot := by
  let := toyHash
  intro store
  obtain ⟨hround, hheader⟩ := @snapshot_round_trip ExactFloat _ _ _
  exact ⟨(hround store).1, hheader _ _ (hround store).1⟩

end FrankenSim.Recompute
