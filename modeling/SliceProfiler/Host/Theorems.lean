import SliceProfiler.Capture.Lemmas.Layout
import SliceProfiler.Host.Lemmas.Cpus
import SliceProfiler.Host.Lemmas.Doctor
import SliceProfiler.Host.Lemmas.Maps
import SliceProfiler.Host.Lemmas.Status

/-!
# What is read of the host
-/

namespace SliceProfiler

open Lib

/-! ## The map table -/

/-- The resolver gets from the text the mappings of files, each under its path up to the first blank: on a loaded
layout the frames are right, and when no such path is the module's, no frame is known. -/
theorem mapTable_read (table : List MapEntry) (h : ∀ e ∈ table, e.Shown) :
    readMaps (some (tableText table)) = table.filterMap MapEntry.mapLine ∧
    (∀ (L : Layout) demangle canonicalize module symbols dynamicSymbols,
      L.Loaded canonicalize module (table.filterMap MapEntry.mapLine) →
      ∀ s ∈ L.segments, L.OffsetResolves s → ∀ a, s.Holds a →
        L.Symbolizes demangle canonicalize module (L.file symbols dynamicSymbols) (readMaps (some (tableText table)))
          s a) ∧
    ∀ demangle canonicalize module file,
      (∀ e ∈ table, ∀ mapped, e.mapped = some mapped → canonicalize mapped ≠ some module) →
      ∀ addresses, (Resolver.read demangle canonicalize module file (some (tableText table))).frames addresses =
        (addresses.map fun a => ⟨none, unknownLabel a, none, some a⟩).reverse := by
  simp only [Resolver.read, readMaps_tableText h]
  refine ⟨trivial,
    fun L demangle canonicalize module symbols dynamicSymbols hl s hs ho a ha => L.symbolizes hl hs ha ho, ?_⟩
  intro demangle canonicalize module file hmapped addresses
  exact frames_of_unmapped (canonicalize_of_mapLine hmapped) addresses

def mainLayout : Layout where
  segments := [⟨0x1000, 0x500, 0x1000⟩]
  bias := 0x555555554000
  aligned := by decide
  congruent := by decide
  disjoint := List.pairwise_singleton _ _
  inMemory := by decide
  inFile := by decide

/-- The file was deleted after the start of the process. -/
def mainTable : List MapEntry :=
  [⟨0x555555555000, 0x555555556000, "r-xp".toList, 0x1000, "fd:00".toList, "42".toList, 20,
    "/tmp/main (deleted)".toList⟩,
    ⟨0x7ffd00000000, 0x7ffd00021000, "rw-p".toList, 0, "00:00".toList, "0".toList, 24, "[stack]".toList⟩]

theorem mainTable_shown : ∀ e ∈ mainTable, e.Shown := by
  intro e he
  rcases List.mem_cons.mp he with rfl | he
  · exact ⟨by decide, by decide, by decide, by decide, by decide, by decide, by decide, by rintro _ ⟨⟩; decide⟩
  · rw [List.mem_singleton.mp he]
    exact ⟨by decide, by decide, by decide, by decide, by decide, by decide, by decide, by rintro _ ⟨⟩; decide⟩

theorem mainTable_loaded : mainLayout.Loaded some "/tmp/main" (mainTable.filterMap MapEntry.mapLine) := by
  refine ⟨fun _ => "/tmp/main", ?_⟩
  decide

theorem mainTable_symbolizes : mainLayout.Symbolizes (fun _ => none) some "/tmp/main"
    (mainLayout.file [⟨true, 0x1010, some "main"⟩] []) (readMaps (some (tableText mainTable))) ⟨0x1000, 0x500, 0x1000⟩
      0x1014 :=
  (mapTable_read mainTable mainTable_shown).2.1 mainLayout _ _ _ _ _ mainTable_loaded _ List.mem_cons_self
    ⟨_, rfl, rfl⟩ _ ⟨by decide, by decide⟩

/-! ## The processors -/

/-- The list is accepted exactly when it has a processor and each of its ranges is a number or two in order. From the
text of the kernel each processor comes once, in order. -/
theorem cpuList_read (parallelism : Except String Nat) :
    (∀ online cpus, availableCpuIds parallelism (some online) = .ok cpus ↔
      cpus ≠ [] ∧ ∃ spans : List CpuSpan, List.Forall₂ (fun range r => r.ReadFrom range) (cpuRanges online) spans ∧
        cpus = spans.flatMap CpuSpan.ids) ∧
    ∀ spans : List CpuSpan, spans ≠ [] → ∃ cpus, availableCpuIds parallelism (some (onlineText spans)) = .ok cpus ∧
      (∀ cpu, cpu ∈ cpus ↔ ∃ r ∈ spans, r.first ≤ cpu ∧ cpu ≤ r.last) ∧
      (spans.Pairwise (fun r r' => r.last < r'.first) → cpus.Pairwise (· < ·)) := by
  refine ⟨fun _ _ => availableCpuIds_eq_ok, fun spans hne => ⟨spans.flatMap CpuSpan.ids, ?_, ?_, ids_strict⟩⟩
  · refine availableCpuIds_eq_ok.mpr ⟨?_, spans, ?_, rfl⟩
    · obtain ⟨r, spans, rfl⟩ := List.exists_cons_of_ne_nil hne
      simp [ids_ne_nil r]
    · rw [cpuRanges_onlineText hne, List.forall₂_map_left_iff, List.forall₂_same]
      exact fun r _ => readFrom_text r
  · intro cpu
    simp [List.mem_flatMap, mem_ids]

/-! ## The status -/

/-- Whatever the other fields say (the name of the process among them), the three readers get the fields of the
process. -/
theorem status_read (p : ProcessStatus) (table : StatusTable) (h : p.ShownIn table) :
    parseKernelTgid (statusText table) = some (p.ids.headD p.tgid) ∧
    processExists (some (statusText table)) = (p.state != 'Z') ∧
    ∀ bit, effectiveCapability (some (statusText table)) bit = p.capEff.testBit bit :=
  ⟨h.parseKernelTgid, h.processExists, h.effectiveCapability⟩

def zombieStatus : ProcessStatus := ⟨[4242, 7], 7, 'Z', "(zombie)".toList, 0x20⟩

/-- The process has the name of a field. -/
def zombieTable : StatusTable :=
  [("Name", "Tgid:".toList), ("State", "Z (zombie)".toList), ("Tgid", "7".toList), ("NSpid", "4242\t7".toList),
    ("CapEff", "0000000000000020".toList)]

theorem zombieStatus_shown : zombieStatus.ShownIn zombieTable where
  shown := by unfold StatusTable.Shown; decide
  ids := by decide
  tgid := by decide
  state := by decide
  capEff := by decide
  ids_le := by decide
  tgid_le := by decide
  capEff_le := by decide
  stateWord := by decide

theorem zombieTable_read : parseKernelTgid (statusText zombieTable) = some 4242 ∧
    processExists (some (statusText zombieTable)) = false ∧
    ∀ bit, effectiveCapability (some (statusText zombieTable)) bit = (0x20).testBit bit :=
  status_read zombieStatus zombieTable zombieStatus_shown

/-! ## The prerequisites -/

/-- The command succeeds exactly on the hosts that suffice, its summary counts every check once, and a check says what
to do exactly when it does not pass. What the authority of the profiler is, its status says. -/
theorem doctor_verdict (host : DoctorHost) :
    ((doctor (linuxDoctorReport host)).2 = .ok () ↔ host.Suffices) ∧
    (linuxDoctorReport host).Remedied ∧
    (∀ report : DoctorReport, report.passed = report.checks.countP (·.status = .pass) ∧
      report.passed + report.warnings + report.failures = report.checks.length) ∧
    ∀ p table, ProcessStatus.ShownIn p table → host.status = some (statusText table) →
      (host.captureAuthorized = true ↔
        host.isRoot = true ∨ p.capEff.testBit 39 = true ∧ p.capEff.testBit 38 = true ∧ p.capEff.testBit 19 = true) := by
  refine ⟨?_, linuxDoctorReport_remedied host, DoctorReport.passed_eq, fun p table h hs => captureAuthorized_iff h hs⟩
  rw [← linuxDoctorReport_hasFailures]
  simp only [doctor]
  cases (linuxDoctorReport host).hasFailures <;> simp

end SliceProfiler
