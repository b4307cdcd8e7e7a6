import FrankenSim.Cbc.Capacities
import FrankenSim.Cbc.Recompute
import FrankenSim.Library.Ranking

/-!
# The minimality certificate is sound, complete and earned

The rescan of an audit and the scan of the executor both keep the winner, its ties and the
runner-up of the candidates so far. An audit passes exactly when the certificate holds them,
and so exactly for the record of a scan.
-/
namespace FrankenSim.Cbc

open Library

structure RunnerEvidence (f : ℕ → ℕ) (seen : List ℕ) (m : ℕ) (runner : Option (List ℕ × ℕ)) :
    Prop where
  isRunnerUp : IsRunnerUp f seen m (runner.map Prod.snd)
  limbs_eq : ∀ r ∈ runner, r.1 = Nat.digits RADIX (f r.2)

/-- What a certificate says about the scores `f` of the candidates: the winner is the first of
least score, the tie class has all others of that score, and the runner-up is the first of the
next score. -/
structure Evidence (f : ℕ → ℕ) (seen : List ℕ) (chosen : Option ℕ) (winningScoreLimbs : List ℕ)
    (tieClass : List ℕ) (runnerUp : Option (List ℕ × ℕ)) (w : ℕ) : Prop where
  least : IsFirstLeast f seen w
  chosen_eq : chosen = some w
  limbs_eq : winningScoreLimbs = Nat.digits RADIX (f w)
  ties_eq : tieClass = seen.filter fun candidate => f candidate = f w
  runner : RunnerEvidence f seen (f w) runnerUp

section Ranking

variable {f : ℕ → ℕ} {seen : List ℕ} {m c : ℕ} {runner : Option (List ℕ × ℕ)}

theorem RunnerEvidence.unique {runner' : Option (List ℕ × ℕ)}
    (h : RunnerEvidence f seen m runner) (h' : RunnerEvidence f seen m runner') :
    runner = runner' := by
  have hcandidate := h.isRunnerUp.unique h'.isRunnerUp
  cases runner with
  | none =>
    cases runner' with
    | none => rfl
    | some r' => simp at hcandidate
  | some r =>
    cases runner' with
    | none => simp at hcandidate
    | some r' =>
      have hlimbs := h.limbs_eq r rfl
      have hlimbs' := h'.limbs_eq r' rfl
      rw [Option.map_some, Option.map_some, Option.some.injEq] at hcandidate
      rw [Option.some.injEq]
      exact Prod.ext (by rw [hlimbs, hlimbs', hcandidate]) hcandidate

theorem RunnerEvidence.concat_le (h : RunnerEvidence f seen m runner) (hle : f c ≤ m) :
    RunnerEvidence f (seen ++ [c]) m runner :=
  ⟨h.isRunnerUp.concat_le hle, h.limbs_eq⟩

/-- The runner-up after a score above: the new candidate unless an earlier one is as good. -/
def nextRunner (score : List ℕ) (candidate : ℕ) (runner : Option (List ℕ × ℕ)) :
    Option (List ℕ × ℕ) :=
  let replace : Bool := match runner with
    | none => true
    | some (best, _) => (magnitudeCmp score best).isLT
  if replace then some (score, candidate) else runner

theorem RunnerEvidence.concat_gt (h : RunnerEvidence f seen m runner)
    (hbelow : ∀ u ∈ seen, u < c) (hlt : m < f c) :
    RunnerEvidence f (seen ++ [c]) m (nextRunner (Nat.digits RADIX (f c)) c runner) := by
  have hnew : ∀ r ∈ some (Nat.digits RADIX (f c), c), r.1 = Nat.digits RADIX (f r.2) := by
    intro r hr
    rw [← Option.some.inj hr]
  obtain ⟨hrunner, hlimbs⟩ := h
  cases runner with
  | none => exact ⟨hrunner.concat_first hlt, hnew⟩
  | some r =>
    have hscore := hlimbs r rfl
    by_cases hlower : f c < f r.2
    · have hcmp : nextRunner (Nat.digits RADIX (f c)) c (some r) =
          some (Nat.digits RADIX (f c), c) := by
        simp only [nextRunner, hscore, magnitudeCmp_digits, compare_lt_iff_lt.2 hlower]
        rfl
      rw [hcmp]
      exact ⟨IsRunnerUp.concat_lower hrunner hlt hlower, hnew⟩
    · have hcmp : nextRunner (Nat.digits RADIX (f c)) c (some r) = some r := by
        have hnot : (compare (f c) (f r.2)).isLT = false := by
          rw [Bool.eq_false_iff, ne_eq, Ordering.isLT_iff_eq_lt, compare_lt_iff_lt]
          exact hlower
        simp only [nextRunner, hscore, magnitudeCmp_digits, hnot]
        rfl
      rw [hcmp]
      exact ⟨IsRunnerUp.concat_higher hrunner hbelow (not_lt.1 hlower), hlimbs⟩

end Ranking

section Scan

variable {f : ℕ → ℕ}

theorem applyScanVerdict_lt {s : ScanState} {m x w c : ℕ}
    (hbest : s.best = some (Nat.digits RADIX m, w)) (hlt : x < m) :
    applyScanVerdict true s (Nat.digits RADIX x) c =
      ⟨some (Nat.digits RADIX x, c), s.best, [c]⟩ := by
  simp [applyScanVerdict, hbest, magnitudeCmp_digits, compare_lt_iff_lt.2 hlt]

theorem applyScanVerdict_eq {s : ScanState} {m w c : ℕ}
    (hbest : s.best = some (Nat.digits RADIX m, w)) :
    applyScanVerdict true s (Nat.digits RADIX m) c =
      ⟨s.best, s.runnerUp, s.tieClass ++ [c]⟩ := by
  simp [applyScanVerdict, hbest, magnitudeCmp_digits]

theorem applyScanVerdict_gt {s : ScanState} {m x w c : ℕ}
    (hbest : s.best = some (Nat.digits RADIX m, w)) (hgt : m < x) :
    applyScanVerdict true s (Nat.digits RADIX x) c =
      ⟨s.best, nextRunner (Nat.digits RADIX x) c s.runnerUp, s.tieClass⟩ := by
  obtain ⟨best, runner, ties⟩ := s
  obtain rfl : best = some (Nat.digits RADIX m, w) := hbest
  simp only [applyScanVerdict, magnitudeCmp_digits, compare_gt_iff_gt.2 hgt, if_true, nextRunner]
  cases runner with
  | none => rfl
  | some r =>
    cases hreplace : (magnitudeCmp (Nat.digits RADIX x) r.1).isLT with
    | false => simp [hreplace]
    | true => simp [hreplace]

def scanned (f : ℕ → ℕ) (l : List ℕ) : ScanState :=
  l.foldl (fun s candidate => applyScanVerdict true s (Nat.digits RADIX (f candidate)) candidate)
    ⟨none, none, []⟩

theorem scanned_evidence {l : List ℕ} (hl : l.Pairwise (· < ·)) (hne : l ≠ []) :
    ∃ w, (scanned f l).best = some (Nat.digits RADIX (f w), w) ∧
      Evidence f l (some w) (Nat.digits RADIX (f w)) (scanned f l).tieClass
        (scanned f l).runnerUp w := by
  induction l using List.reverseRecOn with
  | nil => exact absurd rfl hne
  | append_singleton l c ih =>
    obtain ⟨hbefore, _, hbelow⟩ := List.pairwise_append.1 hl
    replace hbelow : ∀ u ∈ l, u < c := fun u hu => hbelow u hu c (List.mem_singleton_self c)
    have hstep : scanned f (l ++ [c]) =
        applyScanVerdict true (scanned f l) (Nat.digits RADIX (f c)) c := by
      simp [scanned]
    by_cases hnil : l = []
    · subst hnil
      refine ⟨c, ?_, IsFirstLeast.singleton f c, rfl, rfl, ?_, ?_⟩
      · rw [hstep]
        rfl
      · rw [hstep]
        simp [applyScanVerdict, scanned]
      · rw [hstep]
        refine ⟨?_, by simp [applyScanVerdict, scanned]⟩
        intro u hu
        rw [List.mem_singleton.1 hu]
    · obtain ⟨w, hbest, hleast, _, _, hties, hrunner⟩ := ih hbefore hnil
      rcases lt_trichotomy (f c) (f w) with hlt | heq | hgt
      · rw [hstep, applyScanVerdict_lt hbest hlt, hbest]
        refine ⟨c, rfl, hleast.concat_lt hlt, rfl, rfl, ?_, IsRunnerUp.displaced hleast hlt, ?_⟩
        · have hnone : l.filter (fun candidate => f candidate = f c) = [] := by
            rw [List.filter_eq_nil_iff]
            intro u hu
            have hle := hleast.le u hu
            simp only [decide_eq_true_eq]
            omega
          simp [List.filter_append, hnone]
        · intro r hr
          rw [← Option.some.inj hr]
      · rw [hstep, heq, applyScanVerdict_eq hbest]
        refine ⟨w, hbest, hleast.concat_ge hbelow heq.ge, rfl, rfl, ?_, hrunner.concat_le heq.le⟩
        simp [List.filter_append, hties, heq]
      · rw [hstep, applyScanVerdict_gt hbest hgt]
        refine ⟨w, hbest, hleast.concat_ge hbelow hgt.le, rfl, rfl, ?_,
          hrunner.concat_gt hbelow hgt⟩
        simp [List.filter_append, hties, hgt.ne']

def rescanned (f : ℕ → ℕ) (m : ℕ) (l : List ℕ) : Except CheckError Rescan :=
  l.foldlM (fun found candidate =>
    rescanStep (Nat.digits RADIX m) found candidate (Nat.digits RADIX (f candidate))) ⟨[], none⟩

theorem rescanStep_gt {found : Rescan} {m x c : ℕ} (hgt : m < x) :
    rescanStep (Nat.digits RADIX m) found c (Nat.digits RADIX x) =
      .ok ⟨found.trueTies, nextRunner (Nat.digits RADIX x) c found.trueRunner⟩ := by
  obtain ⟨ties, runner⟩ := found
  simp only [rescanStep, magnitudeCmp_digits, compare_gt_iff_gt.2 hgt, nextRunner]
  cases runner with
  | none => rfl
  | some r =>
    cases hreplace : (magnitudeCmp (Nat.digits RADIX x) r.1).isLT with
    | false => simp [hreplace]
    | true => simp [hreplace]

/-- A rescan finds a lower score, or the ties and the runner-up of the declared one. -/
theorem rescanned_spec {m : ℕ} {l : List ℕ} (hl : l.Pairwise (· < ·)) :
    (∃ found, rescanned f m l = .ok found ∧ (∀ c ∈ l, m ≤ f c) ∧
      found.trueTies = l.filter (fun candidate => f candidate = m) ∧
        RunnerEvidence f l m found.trueRunner) ∨
    (∃ error, rescanned f m l = .error error) ∧ ∃ c ∈ l, f c < m := by
  induction l using List.reverseRecOn with
  | nil => exact .inl ⟨⟨[], none⟩, rfl, by simp, rfl, by simp [IsRunnerUp], by simp⟩
  | append_singleton l c ih =>
    obtain ⟨hbefore, _, hbelow⟩ := List.pairwise_append.1 hl
    replace hbelow : ∀ u ∈ l, u < c := fun u hu => hbelow u hu c (List.mem_singleton_self c)
    have hstep : rescanned f m (l ++ [c]) = rescanned f m l >>= fun found =>
        rescanStep (Nat.digits RADIX m) found c (Nat.digits RADIX (f c)) := by
      simp [rescanned, List.foldlM_append]
    rw [hstep]
    obtain ⟨found, hfound, hle, hties, hrunner⟩ | ⟨⟨error, herror⟩, u, hu, hlt⟩ := ih hbefore
    · rw [hfound]
      simp only [bind, Except.bind]
      rcases lt_trichotomy (f c) m with hlt | heq | hgt
      · right
        refine ⟨⟨.refused (.notMinimal c), ?_⟩, c, by simp, hlt⟩
        simp only [rescanStep, magnitudeCmp_digits, compare_lt_iff_lt.2 hlt]
        rfl
      · left
        refine ⟨⟨found.trueTies ++ [c], found.trueRunner⟩, ?_, ?_, ?_, hrunner.concat_le heq.le⟩
        · simp only [rescanStep, magnitudeCmp_digits, compare_eq_iff_eq.2 heq]
        · rw [forall_mem_concat]
          exact ⟨hle, heq.ge⟩
        · simp [List.filter_append, hties, heq]
      · left
        refine ⟨_, rescanStep_gt hgt, ?_, ?_, hrunner.concat_gt hbelow hgt⟩
        · rw [forall_mem_concat]
          exact ⟨hle, hgt.le⟩
        · simp [List.filter_append, hties, hgt.ne']
    · right
      rw [herror]
      exact ⟨⟨error, rfl⟩, u, List.mem_append_left _ hu, hlt⟩

end Scan

/-- The values that the types of a certificate allow. -/
structure WellTyped (certificate : CbcPrefixCertificate) : Prop where
  pointCount_lt : certificate.pointCount < RADIX
  limbs_lt : ∀ x ∈ certificate.winningScoreLimbs, x < RADIX
  limbs_length : certificate.winningScoreLimbs.length ≤ VEC_LIMBS_MAX
  exponent_lt : certificate.denominatorExponent < RADIX

structure WellFormed (certificate : CbcPrefixCertificate) : Prop where
  three_le : 3 ≤ certificate.pointCount
  two_le : 2 ≤ certificate.declaredPrefix.length
  tieRule : certificate.tieRule = TIE_RULE_LOWEST_CANDIDATE
  admissibleRule : certificate.admissibleRule = ADMISSIBLE_RULE_UNITS
  length_lt : certificate.declaredPrefix.length < RADIX
  exponent : certificate.denominatorExponent = certificate.declaredPrefix.length
  winning_canonical : certificate.winningScoreLimbs.getLast? ≠ some 0
  runner_canonical : ∀ r ∈ certificate.runnerUp, r.1.getLast? ≠ some 0
  components : ∀ component ∈ certificate.declaredPrefix,
    IsUnitMod certificate.pointCount component
  ties_ne_nil : certificate.tieClass ≠ []
  ties_head : certificate.tieClass.head? = certificate.chosen
  ties_chain : certificate.tieClass.IsChain (· < ·)
  ties_units : ∀ candidate ∈ certificate.tieClass, IsUnitMod certificate.pointCount candidate
  runner_unit : ∀ r ∈ certificate.runnerUp,
    IsUnitMod certificate.pointCount r.2 ∧ r.2 ∉ certificate.tieClass

theorem any_inadmissible {n : ℕ} {l : List ℕ} :
    l.any (inadmissible n) = true ↔ ¬ ∀ component ∈ l, IsUnitMod n component := by
  rw [List.any_eq_true]
  constructor
  · rintro ⟨component, hmem, hbad⟩ hall
    rw [inadmissible_eq_false.2 (hall component hmem)] at hbad
    cases hbad
  · intro hnot
    by_contra hnone
    apply hnot
    intro component hmem
    rw [← inadmissible_eq_false, Bool.eq_false_iff]
    intro hbad
    exact hnone ⟨component, hmem, hbad⟩

theorem structural_ok {certificate : CbcPrefixCertificate} {scanPrefix : List ℕ} :
    structural certificate = .ok scanPrefix ↔
      WellFormed certificate ∧ scanPrefix = certificate.declaredPrefix.dropLast := by
  have hrunnerCanonical : ¬ (certificate.runnerUp.any fun runner =>
      runner.1.getLast? = some 0) = true ↔
        ∀ r ∈ certificate.runnerUp, r.1.getLast? ≠ some 0 := by
    cases certificate.runnerUp <;> simp
  have hrunnerUnit : ¬ (certificate.runnerUp.any fun runner =>
      inadmissible certificate.pointCount runner.2 ||
        certificate.tieClass.contains runner.2) = true ↔
        ∀ r ∈ certificate.runnerUp,
          IsUnitMod certificate.pointCount r.2 ∧ r.2 ∉ certificate.tieClass := by
    cases certificate.runnerUp <;> simp [inadmissible_eq_false]
  simp only [structural, ite_error_eq_ok, hrunnerCanonical, hrunnerUnit, any_inadmissible,
    not_or, not_not, not_lt, not_le, ne_eq, Except.ok.injEq]
  constructor
  · rintro ⟨hthree, htwo, ⟨htieRule, hadmissible⟩, hlength, hexponent, hwinning, hcanonical,
      hcomponents, ⟨hne, hhead, hchain, hties⟩, hunit, hearlier⟩
    exact ⟨⟨hthree, htwo, htieRule, hadmissible, hlength, hexponent, hwinning, hcanonical,
      hcomponents, hne, hhead, hchain, hties, hunit⟩, hearlier.symm⟩
  · rintro ⟨⟨hthree, htwo, htieRule, hadmissible, hlength, hexponent, hwinning, hcanonical,
      hcomponents, hne, hhead, hchain, hties, hunit⟩, hearlier⟩
    exact ⟨hthree, htwo, ⟨htieRule, hadmissible⟩, hlength, hexponent, hwinning, hcanonical,
      hcomponents, ⟨hne, hhead, hchain, hties⟩, hunit, hearlier.symm⟩

/-- A certificate that is minimal: its rules are the declared ones, its prefix consists of
units, and it has the evidence for its last component. -/
structure Minimal (certificate : CbcPrefixCertificate) : Prop where
  three_le : 3 ≤ certificate.pointCount
  two_le : 2 ≤ certificate.declaredPrefix.length
  components : ∀ component ∈ certificate.declaredPrefix,
    IsUnitMod certificate.pointCount component
  tieRule : certificate.tieRule = TIE_RULE_LOWEST_CANDIDATE
  admissibleRule : certificate.admissibleRule = ADMISSIBLE_RULE_UNITS
  exponent : certificate.denominatorExponent = certificate.declaredPrefix.length
  evidence : ∃ w, Evidence
    (exactScore certificate.pointCount certificate.declaredPrefix.dropLast)
    (units certificate.pointCount) certificate.chosen certificate.winningScoreLimbs
    certificate.tieClass certificate.runnerUp w

section Audit

variable {certificate : CbcPrefixCertificate}

theorem exactly_ok {α : Type} (a : α) : exactly (.ok a) = .ok a := rfl

theorem foldlM_units {ε σ : Type} (g : σ → ℕ → Except ε σ) (s : σ) (n : ℕ) :
    (candidates n).foldlM (fun s candidate => if gcd candidate n ≠ 1 then .ok s else
      g s candidate) s = (units n).foldlM g s := by
  rw [units, List.foldlM_filter]
  congr 1
  funext s candidate
  rw [gcd_eq]
  by_cases hcoprime : candidate.Coprime n
  · rw [if_neg (not_not.2 hcoprime), if_pos (decide_eq_true hcoprime)]
  · rw [if_pos hcoprime, if_neg (by simpa using hcoprime)]
    rfl

theorem WellFormed.sizes (h : WellFormed certificate) :
    0 < certificate.pointCount ∧ certificate.declaredPrefix.dropLast.length < RADIX := by
  have hthree := h.three_le
  have hlength := h.length_lt
  rw [List.length_dropLast]
  omega

theorem rescan_eq {n m : ℕ} {generators : List ℕ} (hn : 0 < n) (hlt : n < RADIX)
    (hlength : generators.length < RADIX) :
    (candidates n).foldlM (fun found candidate =>
      if gcd candidate n ≠ 1 then .ok found
      else do
        let score ← exactly (scoreFor n ((List.range n).map fun point =>
          Nat.digits RADIX (kernelProduct n point generators)) candidate)
        rescanStep (Nat.digits RADIX m) found candidate score) (⟨[], none⟩ : Rescan) =
      rescanned (exactScore n generators) m (units n) := by
  rw [foldlM_units, rescanned]
  congr 1
  funext found candidate
  rw [scoreFor_eq hn hlt hlength]
  rfl

/-- An audit compares the declaration with the rescan at its prefix. -/
theorem auditMinimality_ok (ht : WellTyped certificate) :
    auditMinimality certificate = .ok () ↔ WellFormed certificate ∧
      ∃ found, rescanned
          (exactScore certificate.pointCount certificate.declaredPrefix.dropLast)
          (Nat.ofDigits RADIX certificate.winningScoreLimbs) (units certificate.pointCount) =
            .ok found ∧
        found.trueTies = certificate.tieClass ∧ found.trueRunner = certificate.runnerUp := by
  cases hstructural : structural certificate with
  | error error =>
    constructor
    · intro h
      rw [auditMinimality, hstructural] at h
      cases h
    · rintro ⟨hformed, _⟩
      rw [structural_ok.2 ⟨hformed, rfl⟩] at hstructural
      cases hstructural
  | ok scanPrefix =>
    obtain ⟨hformed, rfl⟩ := structural_ok.1 hstructural
    obtain ⟨hn, hlength⟩ := hformed.sizes
    simp only [auditMinimality, hstructural, Except.mapError, bind, Except.bind, exactly_ok,
      productsFor_eq hn ht.pointCount_lt hlength, exactFromLimbs_eq ht.limbs_lt ht.limbs_length]
    have hrescan := @rescan_eq certificate.pointCount
      (Nat.ofDigits RADIX certificate.winningScoreLimbs)
      certificate.declaredPrefix.dropLast hn ht.pointCount_lt hlength
    simp only [bind, Except.bind] at hrescan
    rw [hrescan]
    cases hfound : rescanned
      (exactScore certificate.pointCount certificate.declaredPrefix.dropLast)
      (Nat.ofDigits RADIX certificate.winningScoreLimbs) (units certificate.pointCount) with
    | error error => simp
    | ok found =>
      obtain ⟨ties, runner⟩ := found
      simp only [hformed, true_and, Except.ok.injEq, exists_eq_left']
      by_cases hties : ties = certificate.tieClass
      · rw [if_neg (not_not.2 hties)]
        cases hdeclared : certificate.runnerUp with
        | none => cases runner <;> simp [hties, refuse]
        | some declared =>
          cases runner with
          | none => simp [refuse]
          | some best =>
            simp [hties, refuse, Prod.ext_iff, eq_comm]
      · rw [if_pos hties]
        simp [hties, refuse]

theorem limbs_eq_digits {limbs : List ℕ} (hlt : ∀ x ∈ limbs, x < RADIX)
    (hcanonical : limbs.getLast? ≠ some 0) :
    limbs = Nat.digits RADIX (Nat.ofDigits RADIX limbs) :=
  (canonicalLimbs_iff one_lt_radix).1 ⟨hlt, hcanonical⟩

theorem digits_canonical (m : ℕ) : (Nat.digits RADIX m).getLast? ≠ some 0 := by
  have h : CanonicalLimbs RADIX (Nat.digits RADIX m) :=
    (canonicalLimbs_iff one_lt_radix).2 (by rw [Nat.ofDigits_digits])
  exact h.2

theorem Minimal.wellFormed (ht : WellTyped certificate) (h : Minimal certificate) :
    WellFormed certificate := by
  obtain ⟨w, hleast, hchosen, hlimbs, hties, hrunner⟩ := h.evidence
  have hexponent := h.exponent
  have hexponentLt := ht.exponent_lt
  have hties_mem : ∀ candidate ∈ certificate.tieClass,
      candidate ∈ units certificate.pointCount ∧
        exactScore certificate.pointCount certificate.declaredPrefix.dropLast candidate =
          exactScore certificate.pointCount certificate.declaredPrefix.dropLast w := by
    intro candidate hmem
    rw [hties, List.mem_filter] at hmem
    exact ⟨hmem.1, by simpa using hmem.2⟩
  have hhead : certificate.tieClass.head? = some w := by
    rw [hties]
    exact hleast.head?_filter (units_pairwise _)
  have hrunner_mem : ∀ r ∈ certificate.runnerUp, r.2 ∈ units certificate.pointCount ∧
      exactScore certificate.pointCount certificate.declaredPrefix.dropLast w <
        exactScore certificate.pointCount certificate.declaredPrefix.dropLast r.2 := by
    intro r hr
    have hup := hrunner.isRunnerUp
    rw [Option.mem_def.1 hr] at hup
    exact ⟨hup.1, hup.2.1⟩
  constructor
  · exact h.three_le
  · exact h.two_le
  · exact h.tieRule
  · exact h.admissibleRule
  · omega
  · exact h.exponent
  · rw [hlimbs]
    exact digits_canonical _
  · intro r hr
    rw [hrunner.limbs_eq r hr]
    exact digits_canonical _
  · exact h.components
  · rintro hnil
    rw [hnil] at hhead
    cases hhead
  · rw [hhead, hchosen]
  · rw [hties]
    exact ((units_pairwise _).filter _).isChain
  · exact fun candidate hmem => mem_units.1 (hties_mem candidate hmem).1
  · intro r hr
    obtain ⟨hunit, habove⟩ := hrunner_mem r hr
    refine ⟨mem_units.1 hunit, fun hmem => ?_⟩
    exact absurd (hties_mem r.2 hmem).2 habove.ne'

theorem auditMinimality_iff (ht : WellTyped certificate) :
    auditMinimality certificate = .ok () ↔ Minimal certificate := by
  rw [auditMinimality_ok ht]
  constructor
  · rintro ⟨hformed, found, hfound, hties, hrunnerUp⟩
    have hsorted := units_pairwise certificate.pointCount
    obtain ⟨found', hfound', hle, hties', hrunner⟩ | ⟨⟨error, herror⟩, _⟩ := @rescanned_spec
      (exactScore certificate.pointCount certificate.declaredPrefix.dropLast)
      (Nat.ofDigits RADIX certificate.winningScoreLimbs) _ hsorted
    · obtain rfl : found' = found := Except.ok.inj (hfound'.symm.trans hfound)
      obtain ⟨w, hw⟩ : ∃ w, certificate.tieClass.head? = some w := by
        cases htie : certificate.tieClass with
        | nil => exact absurd htie hformed.ties_ne_nil
        | cons w rest => exact ⟨w, rfl⟩
      have hhead := hw
      rw [← hties, hties'] at hhead
      obtain ⟨hleast, hscore⟩ := IsFirstLeast.of_head?_filter hsorted hle hhead
      refine ⟨hformed.three_le, hformed.two_le, hformed.components, hformed.tieRule,
        hformed.admissibleRule, hformed.exponent, w, hleast, ?_, ?_, ?_, ?_⟩
      · rw [← hformed.ties_head, hw]
      · rw [hscore]
        exact limbs_eq_digits ht.limbs_lt hformed.winning_canonical
      · rw [← hties, hties', hscore]
      · rw [← hrunnerUp, hscore]
        exact hrunner
    · rw [hfound] at herror
      cases herror
  · intro h
    obtain ⟨w, hleast, hchosen, hlimbs, hties, hrunner⟩ := h.evidence
    have hvalue : Nat.ofDigits RADIX certificate.winningScoreLimbs =
        exactScore certificate.pointCount certificate.declaredPrefix.dropLast w := by
      rw [hlimbs, Nat.ofDigits_digits]
    refine ⟨h.wellFormed ht, ?_⟩
    rw [hvalue]
    obtain ⟨found, hfound, _, hties', hrunner'⟩ | ⟨_, u, hu, hlt⟩ := @rescanned_spec
      (exactScore certificate.pointCount certificate.declaredPrefix.dropLast)
      (exactScore certificate.pointCount certificate.declaredPrefix.dropLast w) _
      (units_pairwise certificate.pointCount)
    · exact ⟨found, hfound, by rw [hties', hties], hrunner'.unique hrunner⟩
    · exact absurd (hleast.le u hu) hlt.not_ge

theorem verifyConsistency_of_minimal (ht : WellTyped certificate) (h : Minimal certificate) :
    verifyConsistency certificate = .ok () := by
  have hformed := h.wellFormed ht
  obtain ⟨hn, hlength⟩ := hformed.sizes
  obtain ⟨w, hleast, hchosen, hlimbs, hties, hrunner⟩ := h.evidence
  have hforM : certificate.tieClass.forM (fun candidate => do
      let score ← exactly (scoreFor certificate.pointCount
        ((List.range certificate.pointCount).map fun point =>
          Nat.digits RADIX (kernelProduct certificate.pointCount point
            certificate.declaredPrefix.dropLast)) candidate)
      if score ≠ certificate.winningScoreLimbs then refuse (.tieClassScoreMismatch candidate)
      else .ok ()) = .ok () := by
    rw [forM_ok]
    intro candidate hmem
    rw [hties, List.mem_filter] at hmem
    have hscore : exactScore certificate.pointCount certificate.declaredPrefix.dropLast candidate =
        exactScore certificate.pointCount certificate.declaredPrefix.dropLast w := by
      simpa using hmem.2
    rw [scoreFor_eq hn ht.pointCount_lt hlength]
    simp [exactly_ok, bind, Except.bind, hlimbs, hscore]
  have hdeclared := exactFromLimbs_eq ht.limbs_lt ht.limbs_length
  have hlimbsLength := ht.limbs_length
  rw [hlimbs, Nat.ofDigits_digits] at hdeclared
  rw [hlimbs] at hlimbsLength
  obtain ⟨copied, hcopied, hnormal⟩ := copied_eq hlimbsLength
  rw [verifyConsistency, structural_ok.2 ⟨hformed, rfl⟩]
  simp only [Except.mapError, bind, Except.bind, exactly_ok,
    productsFor_eq hn ht.pointCount_lt hlength] at hforM ⊢
  rw [hforM]
  cases hrunnerUp : certificate.runnerUp with
  | none => rfl
  | some r =>
    have hup := hrunner.isRunnerUp
    have hrlimbs := hrunner.limbs_eq r hrunnerUp
    rw [hrunnerUp] at hup
    obtain ⟨declaredLimbs, runner⟩ := r
    replace hrlimbs : declaredLimbs = Nat.digits RADIX
      (exactScore certificate.pointCount certificate.declaredPrefix.dropLast runner) := hrlimbs
    rw [hrlimbs]
    simp only [scoreFor_eq hn ht.pointCount_lt hlength, exactly_ok, ne_eq, not_true, if_false,
      hlimbs, hdeclared, hcopied, hnormal, magnitudeCmp_digits, compare_gt_iff_gt.2 hup.2.1]

end Audit

section Executor

variable {problem : CbcProblem} {capacities : LimbCapacities} {z : List ℕ}

theorem one_mem_units {n : ℕ} (hn : 3 ≤ n) : 1 ∈ units n :=
  mem_units.2 ⟨by omega, by omega, Nat.coprime_one_left n⟩

/-- The executor's scan of an admitted problem is the scan of the exact scores. -/
theorem scan_foldlM (h : Admitted problem capacities) (hlength : z.length < problem.dimension)
    {growTo budget : ℕ} (hgrow : capacities.scoreCapacityLimbs ≤ growTo) (hbudget : 0 < budget) :
    (candidates problem.pointCount).foldlM (fun s candidate =>
      if gcd candidate problem.pointCount ≠ 1 then Except.ok s
      else do
        let score ← runningScore growTo budget
          (scanTerms problem.pointCount candidate z problem.pointCount)
        .ok (applyScanVerdict true s (normalize score) candidate)) (⟨none, none, []⟩ : ScanState) =
      (.ok (scanned (exactScore problem.pointCount z) (units problem.pointCount)) :
        Except Fault ScanState) := by
  rw [foldlM_units, scanned]
  have hscore (candidate : ℕ) : ∃ score, runningScore growTo budget
      (scanTerms problem.pointCount candidate z problem.pointCount) = .ok score ∧
        normalize score = Nat.digits RADIX (exactScore problem.pointCount z candidate) := by
    obtain ⟨score, hscore, hscored⟩ := (h.scanBound candidate hlength).foldlM_spec hgrow
      (fun hfits => accumulate_spec hfits hbudget) (le_refl _)
    exact ⟨score, hscore, by
      rw [normalize, trimmed_eq_digits one_lt_radix hscored.limbs_lt, hscored.value_eq,
        exactScore]⟩
  generalize (⟨none, none, []⟩ : ScanState) = s
  induction units problem.pointCount generalizing s with
  | nil => rfl
  | cons candidate rest ih =>
    obtain ⟨score, hrun, hnormal⟩ := hscore candidate
    rw [List.foldlM_cons, List.foldl_cons, hrun]
    simp only [bind, Except.bind, hnormal]
    exact ih _

/-- A scan ends with a record that is minimal. -/
theorem scanCertificate_minimal (h : Admitted problem capacities)
    (hz : ∀ component ∈ z, IsUnitMod problem.pointCount component) (hne : z ≠ [])
    (hlength : z.length < problem.dimension) (hexponent : problem.dimension < RADIX)
    {growTo budget : ℕ} (hgrow : capacities.scoreCapacityLimbs ≤ growTo) (hbudget : 0 < budget) :
    ∃ certificate, scanCertificate problem.pointCount growTo budget z = .ok certificate ∧
      WellTyped certificate ∧ Minimal certificate ∧
        certificate.pointCount = problem.pointCount ∧
          certificate.declaredPrefix.dropLast = z := by
  have hthree := problem.three_le
  have hunits : units problem.pointCount ≠ [] := List.ne_nil_of_mem (one_mem_units hthree)
  obtain ⟨w, hbest, hevidence⟩ := @scanned_evidence (exactScore problem.pointCount z) _
    (units_pairwise problem.pointCount) hunits
  have hpositive := List.length_pos_of_ne_nil hne
  refine ⟨⟨problem.pointCount, z ++ [w],
    Nat.digits RADIX (exactScore problem.pointCount z w),
    (scanned (exactScore problem.pointCount z) (units problem.pointCount)).tieClass,
    (scanned (exactScore problem.pointCount z) (units problem.pointCount)).runnerUp,
    (z ++ [w]).length, TIE_RULE_LOWEST_CANDIDATE, ADMISSIBLE_RULE_UNITS⟩, ?_, ?_, ?_, rfl,
    List.dropLast_concat⟩
  · rw [scanCertificate, scan_foldlM h hlength hgrow hbudget]
    simp only [bind, Except.bind, hbest, buildPrefixCertificate]
    rw [if_neg]
    rw [List.length_append, List.length_singleton]
    omega
  · have hn : 0 < problem.pointCount := by omega
    have hbound := scanBound_checker hn problem.pointCount_lt w z
    constructor
    · exact problem.pointCount_lt
    · exact digits_lt _
    · have hvalue := hbound.value_lt (problem.pointCount - 1) (by omega)
      rw [Nat.sub_add_cancel hn] at hvalue
      have hdigits : (Nat.digits RADIX (exactScore problem.pointCount z w)).length ≤
          3 * z.length + 6 := by
        rw [Nat.digits_length_le_iff one_lt_radix]
        exact hvalue
      simp only [RADIX, VEC_LIMBS_MAX] at *
      omega
    · simp only [List.length_append, List.length_singleton]
      omega
  · constructor
    · exact hthree
    · simp only [List.length_append, List.length_singleton]
      omega
    · rw [forall_mem_concat]
      exact ⟨hz, mem_units.1 hevidence.least.mem⟩
    · rfl
    · rfl
    · rfl
    · refine ⟨w, ?_⟩
      simp only [List.dropLast_concat]
      refine ⟨hevidence.least, ?_, rfl, hevidence.ties_eq, hevidence.runner⟩
      simp [CbcPrefixCertificate.chosen]

/-- A minimal certificate is the only one for its points and its scan prefix. -/
theorem Minimal.unique {certificate certificate' : CbcPrefixCertificate}
    (h : Minimal certificate) (h' : Minimal certificate')
    (hcount : certificate.pointCount = certificate'.pointCount)
    (hearlier : certificate.declaredPrefix.dropLast = certificate'.declaredPrefix.dropLast) :
    certificate = certificate' := by
  obtain ⟨w, hleast, hchosen, hlimbs, hties, hrunner⟩ := h.evidence
  obtain ⟨w', hleast', hchosen', hlimbs', hties', hrunner'⟩ := h'.evidence
  rw [← hcount, ← hearlier] at hleast' hlimbs' hties' hrunner'
  obtain rfl := hleast.unique hleast'
  have hrestored {c : CbcPrefixCertificate} (hc : c.chosen = some w) :
      c.declaredPrefix = c.declaredPrefix.dropLast ++ [w] :=
    (List.dropLast_append_getLast? w hc).symm
  have hdeclared : certificate.declaredPrefix = certificate'.declaredPrefix := by
    rw [hrestored hchosen, hrestored hchosen', hearlier]
  have hexponent : certificate.denominatorExponent = certificate'.denominatorExponent := by
    rw [h.exponent, h'.exponent, hdeclared]
  have htieRule := h.tieRule.trans h'.tieRule.symm
  have hadmissible := h.admissibleRule.trans h'.admissibleRule.symm
  have hwinning := hlimbs.trans hlimbs'.symm
  have htieClass := hties.trans hties'.symm
  have hrunnerUp := hrunner.unique hrunner'
  cases certificate
  cases certificate'
  simp only at hcount hdeclared hexponent htieRule hadmissible hwinning htieClass hrunnerUp
  simp only [hcount, hdeclared, hexponent, htieRule, hadmissible, hwinning, htieClass, hrunnerUp]

/-- An audit passes exactly for minimal certificates, which are consistent; the record of an
executor's scan passes, and it is the only record for its points and its scan prefix that does.
The products of the scan are those that the updates of its prefix leave. -/
theorem auditMinimality_exact :
    (∀ certificate : CbcPrefixCertificate, WellTyped certificate →
      (auditMinimality certificate = .ok () ↔ Minimal certificate)) ∧
    (∀ certificate : CbcPrefixCertificate, WellTyped certificate →
      auditMinimality certificate = .ok () → verifyConsistency certificate = .ok ()) ∧
    (∀ {problem : CbcProblem} {capacities : LimbCapacities},
      limbCapacities problem = .ok capacities → problem.dimension < RADIX →
      ∀ z : List ℕ, z ≠ [] → z.length < problem.dimension →
      (∀ component ∈ z, IsUnitMod problem.pointCount component) →
      ∀ growTo budget, capacities.scoreCapacityLimbs ≤ growTo → 0 < budget →
        ∃ record, scanCertificate problem.pointCount growTo budget z = .ok record ∧
          auditMinimality record = .ok () ∧
          (∀ certificate, WellTyped certificate → certificate.pointCount = problem.pointCount →
            certificate.declaredPrefix.dropLast = z →
            (auditMinimality certificate = .ok () ↔ certificate = record)) ∧
          ∀ point limbsCapacity scratchCapacity,
            capacities.productCapacityLimbs ≤ scratchCapacity →
            updatedProduct problem.pointCount limbsCapacity capacities.productCapacityLimbs
              scratchCapacity point z =
                .ok (.ok (), Nat.digits RADIX (kernelProduct problem.pointCount point z))) := by
  refine ⟨fun certificate ht => auditMinimality_iff ht, fun certificate ht haudit =>
    verifyConsistency_of_minimal ht ((auditMinimality_iff ht).1 haudit), ?_⟩
  intro problem capacities hcapacities hexponent z hne hlength hz growTo budget hgrow hbudget
  obtain ⟨record, hrecord, htyped, hminimal, hcount, hearlier⟩ :=
    scanCertificate_minimal (admitted_of_ok hcapacities) hz hne hlength hexponent hgrow hbudget
  have haudit := (auditMinimality_iff htyped).2 hminimal
  refine ⟨record, hrecord, haudit, ?_, ?_⟩
  · intro certificate ht hcount' hearlier'
    constructor
    · intro hpasses
      exact ((auditMinimality_iff ht).1 hpasses).unique hminimal (hcount'.trans hcount.symm)
        (hearlier'.trans hearlier.symm)
    · rintro rfl
      exact haudit
  · intro point limbsCapacity scratchCapacity hscratch
    exact (admitted_of_ok hcapacities).updatedProduct_eq point hlength.le limbsCapacity hscratch

/-- Seven points, where two pairs of mirror images tie. -/
theorem auditMinimality_exact_seven :
    ∃ record, scanCertificate 7 3 2 [1] = .ok record ∧ auditMinimality record = .ok () ∧
      (∀ certificate, WellTyped certificate → certificate.pointCount = 7 →
        certificate.declaredPrefix.dropLast = [1] →
        (auditMinimality certificate = .ok () ↔ certificate = record)) ∧
      ∀ point limbsCapacity scratchCapacity, 3 ≤ scratchCapacity →
        updatedProduct 7 limbsCapacity 3 scratchCapacity point [1] =
          .ok (.ok (), Nat.digits RADIX (kernelProduct 7 point [1])) :=
  (@auditMinimality_exact.2.2 ⟨7, 2, by decide, by decide, by decide, by decide⟩
    ⟨1, 1, 1, 1, 3, 3⟩ (by rfl)) (by decide) [1] (by simp) (by decide)
    (by simp [IsUnitMod]) 3 2
    (by decide) (by decide)

end Executor

end FrankenSim.Cbc
