import SliceProfiler.Host.Doctor
import SliceProfiler.Host.Lemmas.Status

/-!
# The verdict on a host
-/

namespace SliceProfiler

open Lib

variable {host : DoctorHost} {report : DoctorReport}

/-! ## The reads -/

theorem accessLoop_eq_available {denied : Bool} {reads : List FileRead} :
    accessLoop denied reads = .available ↔ .data ∈ reads := by
  induction reads generalizing denied with
  | nil => cases denied <;> simp [accessLoop]
  | cons read reads ih => cases read <;> simp [accessLoop, ih]

theorem accessLoop_eq_permissionDenied {denied : Bool} {reads : List FileRead} :
    accessLoop denied reads = .permissionDenied ↔ .data ∉ reads ∧ (denied = true ∨ .permissionDenied ∈ reads) := by
  induction reads generalizing denied with
  | nil => cases denied <;> simp [accessLoop]
  | cons read reads ih => cases read <;> simp [accessLoop, ih]

theorem toOption_eq_some {ε α : Type} {x : Except ε α} {a : α} : x.toOption = some a ↔ x = .ok a := by
  cases x <;> simp [Except.toOption]

theorem kernelAtLeast_iff {release : List Char} {requiredMajor requiredMinor : Nat} :
    kernelAtLeast release requiredMajor requiredMinor = true ↔ ReleaseAtLeast release requiredMajor requiredMinor := by
  simp only [kernelAtLeast, Option.any_eq_true, Option.bind_eq_some_iff, Option.map_eq_some_iff, toOption_eq_some,
    parseUnsigned_eq_ok, decide_eq_true_eq]
  constructor
  · rintro ⟨_, ⟨n, ⟨major, hmajor, hn, hn'⟩, m, ⟨minor, hminor, hm, hm'⟩, rfl⟩, hle⟩
    obtain ⟨rest, hrest⟩ : ∃ rest, release.splitOn '.' = major :: minor :: rest := by
      cases h : release.splitOn '.' with
      | nil => simp [h] at hmajor
      | cons c l =>
          cases l with
          | nil => simp [h] at hminor
          | cons c' l => simp_all
    exact ⟨major, minor, rest, n, m, hrest, hn, hn', hm, hm', Prod.Lex.toLex_le_toLex.mp hle⟩
  · rintro ⟨major, minor, rest, n, m, hsplit, hn, hn', hm, hm', hle⟩
    refine ⟨_, ⟨n, ⟨major, by rw [hsplit]; rfl, hn, hn'⟩, m, ⟨minor, by rw [hsplit]; rfl, hm, hm'⟩, rfl⟩, ?_⟩
    exact Prod.Lex.toLex_le_toLex.mpr hle

theorem containsBytes_iff {haystack needle : List UInt8} :
    containsBytes haystack needle = true ↔ needle <:+: haystack := by
  simp only [containsBytes, windows, List.any_map, List.any_eq_true, List.mem_range, Function.comp, decide_eq_true_eq]
  constructor
  · rintro ⟨i, -, h⟩
    rw [← h]
    exact (List.take_prefix _ _).isInfix.trans (List.drop_suffix _ _).isInfix
  · rintro ⟨front, back, rfl⟩
    refine ⟨front.length, ?_, ?_⟩
    · simp only [List.length_append]
      omega
    · simp [List.append_assoc]

/-! ## The report -/

theorem hasFailures_eq_false : report.hasFailures = false ↔ ∀ check ∈ report.checks, check.status ≠ .failure := by
  simp [DoctorReport.hasFailures]

/-- What holds of the checks that only show something has to be seen of the six others. -/
theorem forall_checks {P : PrerequisiteCheck → Prop} (hshown : ∀ key label detail, P (shownCheck key label detail)) :
    (∀ check ∈ (linuxDoctorReport host).checks, P check) ↔ P (architectureCheck host) ∧ P (kernelCheck host) ∧
      P (btfCheck host) ∧ P (uprobeMultiCheck host) ∧ P (schedSwitchCheck host) ∧ P (authorityCheck host) := by
  simp only [linuxDoctorReport, List.forall_mem_append, List.forall_mem_cons, hshown]
  simp [hshown]

theorem schedSwitch_ne_failure : (schedSwitchCheck host).status ≠ .failure ↔
    .data ∈ [host.tracing, host.debugTracing] ∨
      host.captureAuthorized = false ∧ .permissionDenied ∈ [host.tracing, host.debugTracing] := by
  have havailable : tracepointAccess host.tracing host.debugTracing = .available ↔ _ := accessLoop_eq_available
  have hdenied : tracepointAccess host.tracing host.debugTracing = .permissionDenied ↔ _ :=
    accessLoop_eq_permissionDenied
  simp only [schedSwitchCheck]
  cases h : tracepointAccess host.tracing host.debugTracing with
  | available => simp [havailable.mp h]
  | permissionDenied =>
      obtain ⟨hno, hyes⟩ := hdenied.mp h
      simp only [hno, hyes.resolve_left nofun, false_or, and_true]
      cases host.captureAuthorized <;> simp
  | missing =>
      have hno : .data ∉ [host.tracing, host.debugTracing] := fun hm => by simp [havailable.mpr hm] at h
      have hno' : .permissionDenied ∉ [host.tracing, host.debugTracing] := fun hm => by
        simp [hdenied.mpr ⟨hno, .inr hm⟩] at h
      simp [hno, hno']

theorem linuxDoctorReport_hasFailures : (linuxDoctorReport host).hasFailures = false ↔ host.Suffices := by
  rw [hasFailures_eq_false, forall_checks fun _ _ _ => by simp [shownCheck], schedSwitch_ne_failure]
  have harch : (architectureCheck host).status ≠ .failure ↔ host.arch = "x86_64" := by simp [architectureCheck]
  have hkernel : (kernelCheck host).status ≠ .failure ↔ ReleaseAtLeast host.release.toList 6 6 := by
    simp [kernelCheck, kernelAtLeast_iff]
  have hbtf : (btfCheck host).status ≠ .failure ↔ host.btfIsFile = true := by simp [btfCheck]
  have huprobe : (uprobeMultiCheck host).status ≠ .failure ↔ ∃ btf, host.btf = some btf ∧ uprobeMultiName <:+: btf := by
    simp [uprobeMultiCheck, DoctorHost.uprobeMultiNamed, containsBytes_iff, Option.any_eq_true]
  have hauthority : (authorityCheck host).status ≠ .failure := by
    simp only [authorityCheck]
    split <;> simp
  rw [harch, hkernel, hbtf, huprobe]
  constructor
  · rintro ⟨h₁, h₂, h₃, h₄, h₅, -⟩
    exact ⟨h₁, h₂, h₃, h₄, h₅⟩
  · rintro ⟨h₁, h₂, h₃, h₄, h₅⟩
    exact ⟨h₁, h₂, h₃, h₄, h₅, hauthority⟩

theorem linuxDoctorReport_remedied (host : DoctorHost) : (linuxDoctorReport host).Remedied := by
  refine (forall_checks fun _ _ _ => by simp [shownCheck]).mpr ⟨?_, ?_, ?_, ?_, ?_, ?_⟩
  · simp [architectureCheck]
  · simp [kernelCheck]
  · simp [btfCheck]
  · simp [uprobeMultiCheck]
  · simp only [schedSwitchCheck]
    cases tracepointAccess host.tracing host.debugTracing with
    | available => simp
    | permissionDenied => cases host.captureAuthorized <;> simp
    | missing => simp
  · simp [authorityCheck]

theorem captureAuthorized_iff {p : ProcessStatus} {table : StatusTable} (h : p.ShownIn table)
    (hs : host.status = some (statusText table)) : host.captureAuthorized = true ↔
      host.isRoot = true ∨ p.capEff.testBit 39 = true ∧ p.capEff.testBit 38 = true ∧ p.capEff.testBit 19 = true := by
  simp [DoctorHost.captureAuthorized, hs, h.effectiveCapability, and_assoc]

/-- The three numbers of the summary count the checks. -/
theorem DoctorReport.passed_eq (report : DoctorReport) : report.passed = report.checks.countP (·.status = .pass) ∧
    report.passed + report.warnings + report.failures = report.checks.length := by
  unfold DoctorReport.passed DoctorReport.warnings DoctorReport.failures
  have hsum : report.checks.countP (·.status = .pass) + report.checks.countP (·.status = .warning) +
      report.checks.countP (·.status = .failure) = report.checks.length := by
    induction report.checks with
    | nil => rfl
    | cons check checks ih =>
        simp only [List.countP_cons, List.length_cons]
        cases check.status <;> simp <;> omega
  omega

end SliceProfiler
