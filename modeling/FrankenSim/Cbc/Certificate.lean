import FrankenSim.Cbc.Scores

/-!
# Certificates of minimality

A certificate binds one scanned component to the exact scores of all candidates. The checkers
rebuild the products and the scores from the declared prefix.
-/
namespace FrankenSim.Cbc

open Library

def TIE_RULE_LOWEST_CANDIDATE : String := "lowest-candidate-wins"

def ADMISSIBLE_RULE_UNITS : String := "units-modulo-n"

/-- One scanned component's selection evidence; the declared prefix ends with the component. -/
structure CbcPrefixCertificate where
  pointCount : ℕ
  declaredPrefix : List ℕ
  winningScoreLimbs : List ℕ
  tieClass : List ℕ
  runnerUp : Option (List ℕ × ℕ)
  denominatorExponent : ℕ
  tieRule : String
  admissibleRule : String
  deriving DecidableEq, Repr

def CbcPrefixCertificate.chosen (certificate : CbcPrefixCertificate) : Option ℕ :=
  certificate.declaredPrefix.getLast?

inductive CbcCertError
  | malformedPrefix
  | inadmissiblePrefix
  | unknownRule
  | denominatorMismatch
  | nonCanonicalScoreLimbs (field : String)
  | malformedTieClass
  | tieClassScoreMismatch (candidate : ℕ)
  | runnerUpMismatch
  | notMinimal (candidate : ℕ)
  | tieClassIncomplete
  deriving DecidableEq, Repr

/-- A checker refuses the certificate, or the program stops. -/
inductive CheckError
  | refused (error : CbcCertError)
  | stopped (fault : Fault)
  deriving DecidableEq, Repr

def exactly {α : Type} (x : Except Fault α) : Except CheckError α := x.mapError .stopped

def gcd (a b : ℕ) : ℕ := if h : b = 0 then a else gcd b (a % b)
termination_by b
decreasing_by exact Nat.mod_lt _ (Nat.pos_of_ne_zero h)

def inadmissible (n component : ℕ) : Bool :=
  component = 0 ∨ n ≤ component ∨ gcd component n ≠ 1

def productsFor (n : ℕ) (generators : List ℕ) : Except Fault (List (List ℕ)) :=
  generators.foldlM
    (fun products component => products.zipIdx.mapM fun (product, point) =>
      mulAssignFactor product (exactKernelNumerator n (latticeResidue point component n)))
    (List.replicate n [1])

def scoreFor (n : ℕ) (products : List (List ℕ)) (candidate : ℕ) : Except Fault (List ℕ) := do
  let score ← products.zipIdx.foldlM
    (fun score (product, point) =>
      addMulSliceFactor score product
        (exactKernelNumerator n (latticeResidue point candidate n))) []
  .ok (normalize score)

/-- `term * 2 ^ (32 * moves)`. -/
def shifted : ℕ → List ℕ → Except Fault (List ℕ)
  | 0, term => .ok term
  | moves + 1, term => do
    let term ← mulAssignFactor term 4294967296
    shifted moves term

/-- The number that declared limbs denote. -/
def exactFromLimbs (limbs : List ℕ) : Except Fault (List ℕ) := do
  let value ← limbs.zipIdx.foldlM
    (fun value (limb, index) =>
      if limb = 0 then .ok value
      else do
        let term ← shifted index [1]
        let term ← mulAssignFactor term limb
        addMulSliceFactor value term 1) []
  .ok (normalize value)

/-- The checks of both modes; the prefix without its last component. -/
def structural (certificate : CbcPrefixCertificate) : Except CbcCertError (List ℕ) :=
  let n := certificate.pointCount
  if n < 3 then .error .inadmissiblePrefix
  else if certificate.declaredPrefix.length < 2 then .error .malformedPrefix
  else if certificate.tieRule ≠ TIE_RULE_LOWEST_CANDIDATE ∨
      certificate.admissibleRule ≠ ADMISSIBLE_RULE_UNITS then .error .unknownRule
  else if RADIX ≤ certificate.declaredPrefix.length then .error .malformedPrefix
  else if certificate.denominatorExponent ≠ certificate.declaredPrefix.length then
    .error .denominatorMismatch
  else if certificate.winningScoreLimbs.getLast? = some 0 then
    .error (.nonCanonicalScoreLimbs "winning score")
  else if certificate.runnerUp.any fun runner => runner.1.getLast? = some 0 then
    .error (.nonCanonicalScoreLimbs "runner-up score")
  else if certificate.declaredPrefix.any (inadmissible n) then .error .inadmissiblePrefix
  else if certificate.tieClass = [] ∨ certificate.tieClass.head? ≠ certificate.chosen ∨
      ¬ certificate.tieClass.IsChain (· < ·) ∨ certificate.tieClass.any (inadmissible n) then
    .error .malformedTieClass
  else if certificate.runnerUp.any fun runner =>
      inadmissible n runner.2 || certificate.tieClass.contains runner.2 then
    .error .runnerUpMismatch
  else .ok certificate.declaredPrefix.dropLast

def refuse {α : Type} (error : CbcCertError) : Except CheckError α := .error (.refused error)

/-- Recompute the scores of the declared candidates. -/
def verifyConsistency (certificate : CbcPrefixCertificate) : Except CheckError Unit := do
  let scanPrefix ← (structural certificate).mapError .refused
  let n := certificate.pointCount
  let products ← exactly (productsFor n scanPrefix)
  certificate.tieClass.forM fun candidate => do
    let score ← exactly (scoreFor n products candidate)
    if score ≠ certificate.winningScoreLimbs then refuse (.tieClassScoreMismatch candidate)
    else .ok ()
  match certificate.runnerUp with
  | none => .ok ()
  | some (declaredLimbs, runner) => do
    let score ← exactly (scoreFor n products runner)
    if score ≠ declaredLimbs then refuse .runnerUpMismatch
    else do
      let declared ← exactly (exactFromLimbs certificate.winningScoreLimbs)
      let winning ← exactly (addMulSliceFactor [] declared 1)
      if magnitudeCmp score (normalize winning) ≠ .gt then refuse .runnerUpMismatch
      else .ok ()

structure Rescan where
  trueTies : List ℕ
  trueRunner : Option (List ℕ × ℕ)
  deriving DecidableEq, Repr

def rescanStep (winning : List ℕ) (found : Rescan) (candidate : ℕ) (score : List ℕ) :
    Except CheckError Rescan :=
  match magnitudeCmp score winning with
  | .lt => refuse (.notMinimal candidate)
  | .eq => .ok { found with trueTies := found.trueTies ++ [candidate] }
  | .gt =>
    let replace : Bool := match found.trueRunner with
      | none => true
      | some (bestAbove, _) => (magnitudeCmp score bestAbove).isLT
    .ok (if replace then { found with trueRunner := some (score, candidate) } else found)

def candidates (n : ℕ) : List ℕ := List.range' 1 (n - 1)

/-- Rescan every admissible candidate at the declared prefix. -/
def auditMinimality (certificate : CbcPrefixCertificate) : Except CheckError Unit := do
  let scanPrefix ← (structural certificate).mapError .refused
  let n := certificate.pointCount
  let products ← exactly (productsFor n scanPrefix)
  let winning ← exactly (exactFromLimbs certificate.winningScoreLimbs)
  let found ← (candidates n).foldlM
    (fun found candidate =>
      if gcd candidate n ≠ 1 then .ok found
      else do
        let score ← exactly (scoreFor n products candidate)
        rescanStep winning found candidate score) ⟨[], none⟩
  if found.trueTies ≠ certificate.tieClass then refuse .tieClassIncomplete
  else
    match certificate.runnerUp, found.trueRunner with
    | none, none => .ok ()
    | some (declaredLimbs, declaredCandidate), some (trueScore, trueCandidate) =>
      if trueScore = declaredLimbs ∧ declaredCandidate = trueCandidate then .ok ()
      else refuse .runnerUpMismatch
    | _, _ => refuse .runnerUpMismatch

structure ScanState where
  best : Option (List ℕ × ℕ)
  runnerUp : Option (List ℕ × ℕ)
  tieClass : List ℕ
  deriving DecidableEq, Repr

inductive Verdict
  | newBest
  | tie
  | above
  deriving DecidableEq, Repr

/-- Compare a finished score with the best so far. -/
def applyScanVerdict (certifying : Bool) (s : ScanState) (score : List ℕ) (candidate : ℕ) :
    ScanState :=
  let verdict : Verdict := match s.best with
    | none => .newBest
    | some (bestScore, _) =>
      match magnitudeCmp score bestScore with
      | .lt => .newBest
      | .eq => .tie
      | .gt => .above
  match verdict with
  | .newBest =>
    let displaced := s.best
    let s := { s with best := some (score, candidate) }
    if certifying then { s with runnerUp := displaced, tieClass := [candidate] } else s
  | .tie => if certifying then { s with tieClass := s.tieClass ++ [candidate] } else s
  | .above =>
    if certifying then
      let replaceRunner : Bool := match s.runnerUp with
        | none => true
        | some (runnerScore, _) => (magnitudeCmp score runnerScore).isLT
      if replaceRunner then { s with runnerUp := some (score, candidate) } else s
    else s

/-- The record of a completed scan, where storage is granted. -/
def buildPrefixCertificate (z winningScore : List ℕ) (chosen : ℕ)
    (runnerUp : Option (List ℕ × ℕ)) (tieClass : List ℕ) (n : ℕ) :
    Except Fault CbcPrefixCertificate :=
  if RADIX ≤ (z ++ [chosen]).length then .error .overflow
  else .ok
    { pointCount := n
      declaredPrefix := z ++ [chosen]
      winningScoreLimbs := winningScore
      tieClass := tieClass
      runnerUp := runnerUp
      denominatorExponent := (z ++ [chosen]).length
      tieRule := TIE_RULE_LOWEST_CANDIDATE
      admissibleRule := ADMISSIBLE_RULE_UNITS }

/-- The certifying scan of a prefix: the exact score of every unit, in ascending order, in calls
of one budget; then the record. -/
def scanCertificate (n growTo budget : ℕ) (z : List ℕ) : Except Fault CbcPrefixCertificate := do
  let s ← (candidates n).foldlM
    (fun s candidate =>
      if gcd candidate n ≠ 1 then .ok s
      else do
        let score ← runningScore growTo budget (scanTerms n candidate z n)
        .ok (applyScanVerdict true s (normalize score) candidate)) ⟨none, none, []⟩
  match s.best with
  | none => .error .unreachable
  | some (winningScore, chosen) =>
    buildPrefixCertificate z winningScore chosen s.runnerUp s.tieClass n

end FrankenSim.Cbc
