import SliceProfiler.Capture.Theorems
import SliceProfiler.Kernel.Lemmas.CallRuns
import SliceProfiler.Kernel.Lemmas.Diagnostics
import SliceProfiler.Kernel.Lemmas.Maps
import SliceProfiler.Kernel.Lemmas.OffCpu

/-!
# Theorems on the captures of the kernel programs
-/

namespace SliceProfiler

open Lib

/-! ## All programs -/

/-- Every capture leads to a valid profile, whose valid invocations on a thread do not overlap. -/
theorem capture_of_run {config : SliceConfig} (request : CaptureRequest) (resolver : Resolver) (store : StackStore)
    (names : Map Nat String) (now : Nat) (release : String) {actions : List KernelAction} {m : Machine}
    (h : run (Machine.step config) {} actions = some m) {delivered : List Event}
    (hd : delivered.Perm m.kernel.events) (hlen : delivered.length ≤ u64Max) (finishNs : Nat) :
    let p := capture request resolver store names now release m.kernel.droppedEvents m.kernel.droppedSamples
      delivered finishNs
    p.validate = .ok () ∧ ∀ i ∈ p.invocations, ∀ j ∈ p.invocations, i ≠ j → i.tid = j.tid →
      i.complete = true ∧ i.valid = true → j.complete = true ∧ j.valid = true →
      i.endNs ≤ j.startNs ∨ j.endNs ≤ i.startNs := by
  intro p
  obtain ⟨own, ho⟩ := Machine.owned_of_run h
  have hp : p.validate = .ok () :=
    capture_validate hlen (orderedBoundaries_of_owned ho hd) (samplesOnThread_of_owned ho hd)
  refine ⟨hp, fun i hi j hj hne htid hiv hjv => ?_⟩
  obtain ⟨e, r, hi'⟩ := spans_of_valid hi hiv.2
  obtain ⟨e', r', hj'⟩ := spans_of_valid hj hjv.2
  have hid : i.id ≠ j.id := fun he =>
    hne (List.inj_on_of_nodup_map (Profile.WellFormed.of_validate hp).invocationIds hi hj he)
  rcases lt_or_gt_of_ne hid with hlt | hlt
  · exact .inl (spans_disjoint ho hd hi' hj' htid hlt)
  · exact .inr (spans_disjoint ho hd hj' hi' htid.symm hlt)

/-- Two calls on a thread, the first with samples before and after its return record; a switch in between; a
call on another thread whose return record is lost. -/
def interleaved : List KernelAction :=
  [.entry ⟨⟨7, 10, 0, true⟩, true⟩, .sample ⟨⟨7, 12, 0, true⟩, 3⟩, .entry ⟨⟨8, 13, 1, true⟩, true⟩,
    .schedSwitch ⟨⟨⟨7, 14, 0, true⟩, 4⟩, 70, 0, true, true, true⟩,
    .schedSwitch ⟨⟨⟨9, 18, 0, true⟩, 4⟩, 90, 70, true, true, true⟩,
    .ret ⟨7, 20, 0, true⟩, .sample ⟨⟨7, 21, 0, true⟩, 3⟩, .retDeletes 7, .ret ⟨8, 22, 1, false⟩, .retDeletes 8,
    .entry ⟨⟨7, 30, 0, true⟩, true⟩, .ret ⟨7, 40, 0, true⟩, .retDeletes 7]

def workConfig : SliceConfig := ⟨1, 1001001⟩

theorem capture_of_interleaved : ∃ m, run (Machine.step workConfig) {} interleaved = some m ∧
    let p := capture workRequest workResolver twoStacks ∅ 0 "6.6" m.kernel.droppedEvents m.kernel.droppedSamples
      m.kernel.events.reverse 50
    p.validate = .ok () ∧ ∀ i ∈ p.invocations, ∀ j ∈ p.invocations, i ≠ j → i.tid = j.tid →
      i.complete = true ∧ i.valid = true → j.complete = true ∧ j.valid = true →
      i.endNs ≤ j.startNs ∨ j.endNs ≤ i.startNs :=
  ⟨(run (Machine.step workConfig) {} interleaved).get (by decide), (Option.some_get _).symm,
    capture_of_run workRequest workResolver twoStacks ∅ 0 "6.6" (Option.some_get _).symm
      (List.reverse_perm _) (by decide) 50⟩

example : (capture workRequest workResolver twoStacks ∅ 0 "6.6" 1 0
    (((run (Machine.step workConfig) {} interleaved).map fun m => m.kernel.events).getD []) 50).invocations.map
      (fun i => (i.id, i.tid, i.startNs, i.endNs, i.valid)) =
    [(2, 7, 10, 20, true), (3, 8, 13, 50, false), (4, 7, 30, 40, true)] := by decide

/-! ## Diagnostics -/

/-- The counters account for every record of a run, and take no part in it. A capture without records is laid to the
probe exactly when no entry program ran; else a record was dropped or an entry refused, and it is never laid to the
adapter. Where the scheduler's warning is given, no sample is off the CPU. -/
theorem diagnostics_of_run {config : SliceConfig} (request : CaptureRequest) (resolver : Resolver) (store : StackStore)
    (names : Map Nat String) (now : Nat) (release : String) {actions : List KernelAction} {s : Counted}
    (h : run (Counted.step config) {} actions = some s) {delivered : List Event}
    (hd : delivered.Perm s.machine.kernel.events) (finishNs : Nat) :
    let uncounted := trace (Counted.step config) (fun s a => s.machine.uncounted a) {} actions
    let p := capture request resolver store names now release s.machine.kernel.droppedEvents
      s.machine.kernel.droppedSamples delivered finishNs
    run (Machine.step config) {} actions = some s.machine ∧ s.Accounts uncounted ∧
    (∀ cause, s.diagnostics.interpretation delivered = some cause ↔ s.machine.kernel.events = [] ∧
      (cause = .neverFired ∧ actions.countP KernelAction.isEntry = 0 ∨
        cause = .undelivered ∧ 0 < actions.countP KernelAction.isEntry ∧
          0 < s.machine.kernel.droppedEvents + uncounted.count .refused)) ∧
    (s.diagnostics.warnsOfScheduler = true → ∀ x ∈ p.samples, x.state = .onCpu) := by
  intro uncounted p
  have haccounts : s.Accounts uncounted := Counted.accounts_of_run h
  have hraw : s.diagnostics.rawEntries = actions.countP KernelAction.isEntry := by
    simpa using Counted.rawEntries_of_run h
  refine ⟨Counted.machine_of_run h, haccounts, fun cause => ?_, fun hwarns x hx => ?_⟩
  · have hempty : delivered.isEmpty = true ↔ s.machine.kernel.events = [] := by
      rw [List.isEmpty_iff, ← List.length_eq_zero_iff, hd.length_eq, List.length_eq_zero_iff]
    have hrecords := haccounts.records
    rw [ProbeDiagnostics.interpretation, Option.ite_none_right_eq_some, hempty, diagnoseEmptyCapture,
      haccounts.accepted,
      ← hraw]
    refine and_congr_right fun hnone => ?_
    rw [hnone, List.length_nil] at hrecords
    by_cases h0 : s.diagnostics.rawEntries = 0
    · simp [h0, eq_comm]
    · have hpos : 0 < s.machine.kernel.droppedEvents + uncounted.count .refused := by omega
      simp [h0, hpos, Nat.pos_of_ne_zero h0, eq_comm]
  · have hintervals := haccounts.intervals
    simp only [ProbeDiagnostics.warnsOfScheduler, Bool.and_eq_true, decide_eq_true_eq, beq_iff_eq] at hwarns
    rw [hwarns.2, Nat.le_zero, List.countP_eq_zero] at hintervals
    cases hs : x.state with
    | onCpu => rfl
    | offCpu =>
        obtain ⟨e, he, hk⟩ := exists_interval_of_offCpu hx hs
        exact absurd (decide_eq_true hk) (hintervals e (hd.mem_iff.mp he))

/-- The record of the entry is dropped, and the switch has no counterpart. -/
def nothingDelivered : List KernelAction :=
  [.entry ⟨⟨7, 10, 0, false⟩, true⟩, .schedSwitch ⟨⟨⟨7, 14, 0, true⟩, 4⟩, 70, 0, true, true, true⟩,
    .entry ⟨⟨8, 20, 1, true⟩, false⟩]

theorem nothingDelivered_undelivered : ∃ s, run (Counted.step workConfig) {} nothingDelivered = some s ∧
    s.diagnostics = ⟨2, 2, 0, 1, 0⟩ ∧ s.diagnostics.warnsOfScheduler = true ∧
    s.diagnostics.interpretation [] = some .undelivered := by
  have hrun : run (Counted.step workConfig) {} nothingDelivered =
      some ((run (Counted.step workConfig) {} nothingDelivered).get (by decide)) := (Option.some_get _).symm
  obtain ⟨-, -, hcause, -⟩ := diagnostics_of_run workRequest workResolver twoStacks ∅ 0 "6.6" hrun
    (List.Perm.refl ([] : List Event)) 40
  exact ⟨_, hrun, by decide, by decide, (hcause .undelivered).mpr ⟨by decide, .inr ⟨rfl, by decide, by decide⟩⟩⟩

/-! ## Off-CPU time -/

/-- The off-CPU intervals of an id begin after its entry and follow one another, and those of a valid invocation
fit between its start and its end. -/
theorem offCpu_of_run {config : SliceConfig} (request : CaptureRequest) (resolver : Resolver) (store : StackStore)
    (names : Map Nat String) (now : Nat) (release : String) {actions : List KernelAction} {m : Machine}
    (h : run (Machine.step config) {} actions = some m) {delivered : List Event}
    (hd : delivered.Perm m.kernel.events) (finishNs : Nat) :
    let p := capture request resolver store names now release m.kernel.droppedEvents m.kernel.droppedSamples
      delivered finishNs
    (∀ e ∈ m.kernel.events, e.kind = 5 →
      (∃ entryNs, (e.invocationId, entryNs) ∈ Machine.entered config actions) ∧
        ∀ entryNs, (e.invocationId, entryNs) ∈ Machine.entered config actions →
          entryNs + e.weightNs ≤ e.timestampNs) ∧
      (m.kernel.events.Pairwise fun e e' => e.kind = 5 → e'.kind = 5 → e.invocationId = e'.invocationId →
        e.timestampNs + e'.weightNs ≤ e'.timestampNs) ∧
      ∀ i ∈ p.invocations, i.complete = true ∧ i.valid = true →
        i.startNs + ((p.samples.filter fun s => s.invocationId = i.id ∧ s.state = .offCpu).map (·.weightNs)).sum ≤
          i.endNs := by
  intro p
  have ht := Machine.timed_of_run h
  refine ⟨fun e he hk => ?_, ht.2.ordered, fun i hi hv => ht.offCpu_sum_le hd hi hv.2⟩
  obtain ⟨entryNs, hin, hle⟩ := ht.2.after e he hk
  refine ⟨⟨entryNs, hin⟩, fun entryNs' hin' => ?_⟩
  rwa [ht.2.entry_unique hin' hin]

/-- A call that is switched out twice in a row and switched in twice, and that returns switched out; the next call
of its thread, and a call on another thread whose records are lost. -/
def switched : List KernelAction :=
  [.entry ⟨⟨7, 10, 0, true⟩, true⟩, .entry ⟨⟨8, 11, 1, false⟩, true⟩,
    .schedSwitch ⟨⟨⟨7, 12, 0, true⟩, 4⟩, 70, 0, true, true, true⟩,
    .schedSwitch ⟨⟨⟨7, 14, 0, true⟩, 4⟩, 70, 0, true, true, true⟩,
    .schedSwitch ⟨⟨⟨9, 18, 0, true⟩, 4⟩, 90, 70, true, true, true⟩,
    .schedSwitch ⟨⟨⟨9, 19, 1, true⟩, 4⟩, 90, 70, true, true, true⟩,
    .schedSwitch ⟨⟨⟨7, 20, 0, true⟩, 4⟩, 70, 0, true, true, true⟩,
    .schedSwitch ⟨⟨⟨9, 25, 0, true⟩, 4⟩, 90, 70, true, true, true⟩,
    .schedSwitch ⟨⟨⟨7, 26, 0, true⟩, 4⟩, 70, 0, true, true, true⟩,
    .ret ⟨7, 28, 0, true⟩, .retDeletes 7, .ret ⟨8, 29, 1, true⟩, .retDeletes 8,
    .entry ⟨⟨7, 30, 0, true⟩, true⟩, .schedSwitch ⟨⟨⟨9, 35, 0, true⟩, 4⟩, 90, 70, true, true, true⟩,
    .ret ⟨7, 40, 0, true⟩, .retDeletes 7]

theorem offCpu_of_switched : ∃ m, run (Machine.step workConfig) {} switched = some m ∧
    let p := capture workRequest workResolver twoStacks ∅ 0 "6.6" m.kernel.droppedEvents m.kernel.droppedSamples
      m.kernel.events.reverse 50
    (∀ e ∈ m.kernel.events, e.kind = 5 →
      (∃ entryNs, (e.invocationId, entryNs) ∈ Machine.entered workConfig switched) ∧
        ∀ entryNs, (e.invocationId, entryNs) ∈ Machine.entered workConfig switched →
          entryNs + e.weightNs ≤ e.timestampNs) ∧
      (m.kernel.events.Pairwise fun e e' => e.kind = 5 → e'.kind = 5 → e.invocationId = e'.invocationId →
        e.timestampNs + e'.weightNs ≤ e'.timestampNs) ∧
      ∀ i ∈ p.invocations, i.complete = true ∧ i.valid = true →
        i.startNs + ((p.samples.filter fun s => s.invocationId = i.id ∧ s.state = .offCpu).map (·.weightNs)).sum ≤
          i.endNs :=
  ⟨(run (Machine.step workConfig) {} switched).get (by decide), (Option.some_get _).symm,
    offCpu_of_run workRequest workResolver twoStacks ∅ 0 "6.6" (Option.some_get _).symm (List.reverse_perm _) 50⟩

example : (capture workRequest workResolver twoStacks ∅ 0 "6.6" 1 0
    (((run (Machine.step workConfig) {} switched).map fun m => m.kernel.events).getD []) 50).samples.map
      (fun s => (s.invocationId, s.state, s.timestampNs, s.weightNs)) =
    [(2, .offCpu, 18, 4), (2, .offCpu, 25, 5)] := by decide

/-! ## The thread maps -/

/-- After any programs the identity maps are inverse to each other, only active threads have an entry, and no map
has more entries than there are threads inside the function; a return leaves no entry of its thread. -/
theorem threadMaps_consistent {config : SliceConfig} {traceTid : Nat → Nat} (hf : Function.Injective traceTid)
    {programs : List Program} (hp : ∀ program ∈ programs, program.Tracked traceTid) :
    let s := Threads.after config programs
    (∀ tid ∈ s.kernel.offcpuByTid, tid ∈ s.kernel.activeByTid) ∧
    (∀ tid ∈ s.kernel.bpfTidToTraceTid, tid ∈ s.kernel.activeByTid) ∧
    Inverse s.kernel.bpfTidToTraceTid s.kernel.traceTidToBpfTid ∧
    (s.kernel.activeByTid.size ≤ s.inside.toFinset.card ∧ s.kernel.offcpuByTid.size ≤ s.inside.toFinset.card ∧
      s.kernel.bpfTidToTraceTid.size ≤ s.inside.toFinset.card ∧
      s.kernel.traceTidToBpfTid.size ≤ s.inside.toFinset.card) ∧
    ∀ ctx, (s.step config (.ret ctx)).kernel.Absent traceTid ctx.tid := by
  intro s
  have h : s.Consistent traceTid := Threads.consistent_after hf hp
  refine ⟨h.linked.offcpu, fun tid ht => ?_, h.linked.inverse, h.sizes, fun ctx => ?_⟩
  · obtain ⟨trace, hl⟩ := exists_lookup_of_mem ht
    exact (h.linked.known tid trace hl).1
  · have hret : (s.step config (.ret ctx)).Consistent traceTid := h.step hf trivial
    exact hret.linked.absent hf fun hm => (mem_active_sliceReturn.mp hm).1 rfl

/-- Two threads that switch while they are inside the function, one of them inside a call of its own. -/
def nestedSwitches : List Program :=
  [.entry ⟨⟨7, 10, 0, true⟩, true⟩, .entry ⟨⟨8, 11, 1, true⟩, true⟩, .entry ⟨⟨7, 12, 0, true⟩, true⟩,
    .schedSwitch ⟨⟨⟨7, 13, 0, true⟩, 4⟩, 107, 0, true, true, true⟩, .sample ⟨⟨8, 14, 1, true⟩, 4⟩,
    .schedSwitch ⟨⟨⟨8, 15, 1, true⟩, 4⟩, 108, 107, true, true, true⟩]

theorem threadMaps_of_nestedSwitches :
    let s := Threads.after workConfig nestedSwitches
    (∀ tid ∈ s.kernel.offcpuByTid, tid ∈ s.kernel.activeByTid) ∧
    (∀ tid ∈ s.kernel.bpfTidToTraceTid, tid ∈ s.kernel.activeByTid) ∧
    Inverse s.kernel.bpfTidToTraceTid s.kernel.traceTidToBpfTid ∧
    (s.kernel.activeByTid.size ≤ s.inside.toFinset.card ∧ s.kernel.offcpuByTid.size ≤ s.inside.toFinset.card ∧
      s.kernel.bpfTidToTraceTid.size ≤ s.inside.toFinset.card ∧
      s.kernel.traceTidToBpfTid.size ≤ s.inside.toFinset.card) ∧
    ∀ ctx, (s.step workConfig (.ret ctx)).kernel.Absent (· + 100) ctx.tid :=
  threadMaps_consistent (fun _ _ h => Nat.add_right_cancel h)
    (by simp [nestedSwitches, Program.Tracked, SwitchContext.Tracked])

example : let s := Threads.after workConfig nestedSwitches
    s.inside.toFinset.card = 2 ∧ s.kernel.bpfTidToTraceTid.size = 2 ∧ s.kernel.offcpuByTid.size = 1 ∧
      (s.step workConfig (.ret ⟨7, 16, 0, true⟩)).kernel.bpfTidToTraceTid.size = 1 := by decide

/-! ## Lost records -/

section Calls

variable {config : SliceConfig} (request : CaptureRequest) (resolver : Resolver) (store : StackStore)
  (names : Map Nat String) (now : Nat) (release : String) {probes : List Probe} {w : World}
  {delivered : List Event} (finishNs : Nat)

/-- A run of calls that meets the condition conceals nothing: every valid invocation is one activation. -/
theorem activation_of_valid (h : run (World.step config) {} probes = some w)
    (hC : Along (World.step config) World.Visible {} probes) (hd : delivered.Perm w.kernel.events) :
    ∀ inv ∈ (capture request resolver store names now release w.kernel.droppedEvents w.kernel.droppedSamples
      delivered finishNs).invocations, inv.complete = true ∧ inv.valid = true →
      ∃ c, (c, inv.endNs) ∈ w.returned ∧ c.tid = inv.tid ∧ c.enterNs = inv.startNs := by
  obtain ⟨own, ht, hu⟩ := World.unconcealed_of_run h hC
  intro inv hinv hv
  obtain ⟨e, r, hspans⟩ := spans_of_valid hinv hv.2
  obtain ⟨c, -, -, hc⟩ := ht.call_of_spans (P := fun _ => True) hd hspans <| by
    rcases hu r (hd.mem_iff.mp hspans.ret.1) hspans.ret.2.1 with ⟨c, hc⟩ | hr
    · exact .inl ⟨c, hc, trivial⟩
    · exact .inr hr
  exact ⟨c, hc⟩

/-- A call whose violation is recorded, and a call on another thread whose return record is lost. -/
def recordedViolation : List Probe :=
  [.call ⟨⟨7, 10, 0, true⟩, true⟩, .call ⟨⟨8, 15, 0, true⟩, true⟩, .call ⟨⟨7, 20, 0, true⟩, true⟩,
    .ret ⟨7, 30, 0, true⟩, .ret ⟨8, 35, 0, false⟩, .ret ⟨7, 40, 0, true⟩, .call ⟨⟨7, 50, 0, true⟩, true⟩,
    .ret ⟨7, 60, 0, true⟩]

theorem activation_of_recordedViolation : ∃ w, run (World.step workConfig) {} recordedViolation = some w ∧
    ∀ inv ∈ (capture workRequest workResolver twoStacks ∅ 0 "6.6" w.kernel.droppedEvents w.kernel.droppedSamples
      w.kernel.events.reverse 70).invocations, inv.complete = true ∧ inv.valid = true →
      ∃ c, (c, inv.endNs) ∈ w.returned ∧ c.tid = inv.tid ∧ c.enterNs = inv.startNs :=
  ⟨(run (World.step workConfig) {} recordedViolation).get (by decide), (Option.some_get _).symm,
    activation_of_valid workRequest workResolver twoStacks ∅ 0 "6.6" 70 (Option.some_get _).symm (by decide)
      (List.reverse_perm _)⟩

/-- The violation of a nested call is lost. -/
def lostViolation : List Probe :=
  [.call ⟨⟨7, 10, 0, true⟩, true⟩, .call ⟨⟨7, 20, 0, false⟩, true⟩, .ret ⟨7, 30, 0, true⟩, .ret ⟨7, 40, 0, true⟩]

/-- The outer call is reported with the end of the inner call. -/
theorem lostViolation_concealed : ∃ w, run (World.step workConfig) {} lostViolation = some w ∧
    ∃ inv ∈ (capture workRequest workResolver twoStacks ∅ 0 "6.6" w.kernel.droppedEvents w.kernel.droppedSamples
      w.kernel.events 50).invocations, (inv.complete = true ∧ inv.valid = true) ∧ inv.startNs = 10 ∧ inv.endNs = 30 ∧
      ∀ x ∈ w.returned, ¬ (x.2 = inv.endNs ∧ x.1.tid = inv.tid ∧ x.1.enterNs = inv.startNs) :=
  ⟨(run (World.step workConfig) {} lostViolation).get (by decide), (Option.some_get _).symm, by decide⟩

/-! ## Nested calls -/

/-- In a run without losses that meets the condition, every valid invocation is an outermost activation: the
calls of its thread that were entered before it are closed, and returned before its end. -/
theorem outermost_of_valid (h : run (World.step config) {} probes = some w)
    (hres : ∀ p ∈ probes, p.context.reserved = true)
    (hC : Along (World.step config) World.ReturnsOutermost {} probes) (hd : delivered.Perm w.kernel.events) :
    ∀ inv ∈ (capture request resolver store names now release w.kernel.droppedEvents w.kernel.droppedSamples
      delivered finishNs).invocations, inv.complete = true ∧ inv.valid = true →
      (∃ c, (c, inv.endNs) ∈ w.returned ∧ c.tid = inv.tid ∧ c.enterNs = inv.startNs) ∧
        ∀ d ∈ w.entered, d.tid = inv.tid → d.enterNs < inv.startNs →
          d ∉ w.callStack inv.tid ∧ ∀ r, (d, r) ∈ w.returned → r ≤ inv.endNs := by
  obtain ⟨own, hl, ho⟩ := World.outermost_of_run h hres hC
  intro inv hinv hv
  obtain ⟨c, hleaf, hi, hc, htid, hstart⟩ := hl.leaf_of_valid hd hinv hv.2
  have houter := ho c inv.endNs inv.id hc hi hleaf
  rw [htid, hstart] at houter
  exact ⟨⟨c, hc, htid, hstart⟩, houter⟩

/-- Calls one after the other, and one nested call. -/
def flatCalls : List Probe :=
  [.call ⟨⟨7, 10, 0, true⟩, true⟩, .call ⟨⟨8, 12, 0, true⟩, true⟩, .call ⟨⟨7, 20, 0, true⟩, true⟩,
    .ret ⟨7, 30, 0, true⟩, .ret ⟨8, 32, 0, true⟩, .ret ⟨7, 40, 0, true⟩, .call ⟨⟨7, 50, 0, true⟩, true⟩,
    .ret ⟨7, 60, 0, true⟩]

theorem outermost_of_flatCalls : ∃ w, run (World.step workConfig) {} flatCalls = some w ∧
    ∀ inv ∈ (capture workRequest workResolver twoStacks ∅ 0 "6.6" w.kernel.droppedEvents w.kernel.droppedSamples
      w.kernel.events.reverse 70).invocations, inv.complete = true ∧ inv.valid = true →
      (∃ c, (c, inv.endNs) ∈ w.returned ∧ c.tid = inv.tid ∧ c.enterNs = inv.startNs) ∧
        ∀ d ∈ w.entered, d.tid = inv.tid → d.enterNs < inv.startNs →
          d ∉ w.callStack inv.tid ∧ ∀ r, (d, r) ∈ w.returned → r ≤ inv.endNs :=
  ⟨(run (World.step workConfig) {} flatCalls).get (by decide), (Option.some_get _).symm,
    outermost_of_valid workRequest workResolver twoStacks ∅ 0 "6.6" 70 (Option.some_get _).symm (by decide) (by decide)
      (List.reverse_perm _)⟩

/-- A call with two inner calls, one after the other. -/
def siblingCalls : List Probe :=
  [.call ⟨⟨7, 10, 0, true⟩, true⟩, .call ⟨⟨7, 20, 0, true⟩, true⟩, .ret ⟨7, 30, 0, true⟩,
    .call ⟨⟨7, 32, 0, true⟩, true⟩, .ret ⟨7, 36, 0, true⟩, .ret ⟨7, 40, 0, true⟩]

/-- The second inner call is reported as valid. -/
theorem siblingCalls_not_outermost : (∀ p ∈ siblingCalls, p.context.reserved = true) ∧
    ∃ w, run (World.step workConfig) {} siblingCalls = some w ∧
    ∃ inv ∈ (capture workRequest workResolver twoStacks ∅ 0 "6.6" w.kernel.droppedEvents w.kernel.droppedSamples
      w.kernel.events 50).invocations, (inv.complete = true ∧ inv.valid = true) ∧
      ∃ x ∈ w.returned, x.1.tid = inv.tid ∧ x.1.enterNs < inv.startNs ∧ inv.endNs < x.2 :=
  ⟨by decide, (run (World.step workConfig) {} siblingCalls).get (by decide), (Option.some_get _).symm, by decide⟩

/-! ## The valid population -/

/-- Without losses, the call of an entry that found no active invocation is valid exactly when it returned and no
call of its thread started inside it. -/
theorem valid_iff_leaf (h : run (World.step config) {} probes = some w)
    (hres : ∀ p ∈ probes, p.context.reserved = true) (hd : delivered.Perm w.kernel.events) :
    let p := capture request resolver store names now release w.kernel.droppedEvents w.kernel.droppedSamples
      delivered finishNs
    ∀ c ∈ w.entered, ∀ i, c.id = some i →
      ((∃ inv ∈ p.invocations, inv.id = i ∧ inv.complete = true ∧ inv.valid = true) ↔
        ∃ r, (c, r) ∈ w.returned ∧ ¬ ∃ d ∈ w.entered, d.tid = c.tid ∧ c.enterNs < d.enterNs ∧ d.enterNs < r) ∧
      ∀ inv ∈ p.invocations, inv.id = i → inv.complete = true ∧ inv.valid = true →
        inv.tid = c.tid ∧ inv.startNs = c.enterNs ∧ (c, inv.endNs) ∈ w.returned := by
  intro p c hc i hi
  obtain ⟨own, hl, h1, he, hr⟩ := World.recorded_of_run h hres
  have hcall : ∀ inv ∈ p.invocations, inv.id = i → inv.valid = true →
      w.Leaf c inv.endNs ∧ (c, inv.endNs) ∈ w.returned ∧ c.tid = inv.tid ∧ c.enterNs = inv.startNs := by
    intro inv hinv hid hv
    obtain ⟨c', hleaf, hi', hc', htid, hstart⟩ := hl.leaf_of_valid hd hinv hv
    -- the identity has one call
    have hown := (hl.tracked.ids c' (hl.tracked.returnedPast _ hc').1 _ hi').2
    rw [hid, (hl.tracked.ids c hc i hi).2] at hown
    have hcc : c = c' := by
      obtain ⟨ct, ce, ci⟩ := c
      obtain ⟨ct', ce', ci'⟩ := c'
      simp only [Prod.mk.injEq] at hown hi hi' ⊢
      rw [hown.1, hown.2, hi, hi', hid]
    subst hcc
    exact ⟨hleaf, hc', htid, hstart⟩
  refine ⟨⟨?_, ?_⟩, ?_⟩
  · rintro ⟨inv, hinv, hid, -, hv⟩
    obtain ⟨hleaf, hret, -, -⟩ := hcall inv hinv hid hv
    refine ⟨inv.endNs, hret, ?_⟩
    rintro ⟨d, hd, hdt, hlt, hlt'⟩
    exact absurd (hleaf d hd hdt hlt) hlt'.not_ge
  · rintro ⟨r, hret, hleaf⟩
    refine hl.valid_of_leaf h1 he hr hd hret hi fun d hd hdt hlt => ?_
    by_contra hlt'
    exact hleaf ⟨d, hd, hdt, hlt, Nat.lt_of_not_le hlt'⟩
  · intro inv hinv hid hv
    obtain ⟨-, hret, htid, hstart⟩ := hcall inv hinv hid hv.2
    exact ⟨htid.symm, hstart.symm, hret⟩

theorem valid_iff_leaf_siblingCalls : ∃ w, run (World.step workConfig) {} siblingCalls = some w ∧
    let p := capture workRequest workResolver twoStacks ∅ 0 "6.6" w.kernel.droppedEvents w.kernel.droppedSamples
      w.kernel.events.reverse 50
    ∀ c ∈ w.entered, ∀ i, c.id = some i →
      ((∃ inv ∈ p.invocations, inv.id = i ∧ inv.complete = true ∧ inv.valid = true) ↔
        ∃ r, (c, r) ∈ w.returned ∧ ¬ ∃ d ∈ w.entered, d.tid = c.tid ∧ c.enterNs < d.enterNs ∧ d.enterNs < r) ∧
      ∀ inv ∈ p.invocations, inv.id = i → inv.complete = true ∧ inv.valid = true →
        inv.tid = c.tid ∧ inv.startNs = c.enterNs ∧ (c, inv.endNs) ∈ w.returned :=
  ⟨(run (World.step workConfig) {} siblingCalls).get (by decide), (Option.some_get _).symm,
    valid_iff_leaf workRequest workResolver twoStacks ∅ 0 "6.6" 50 (Option.some_get _).symm (by decide)
      (List.reverse_perm _)⟩

end Calls

end SliceProfiler
