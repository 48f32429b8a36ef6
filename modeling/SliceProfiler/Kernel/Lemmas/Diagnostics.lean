import SliceProfiler.Kernel.Diagnostics
import SliceProfiler.Kernel.Lemmas.OffCpu

/-!
# What the counters of the probes account for
-/

namespace SliceProfiler

open Lib

variable {config : SliceConfig} {k k' k'' : Kernel} {kinds kinds' : List Nat}

/-- Records of the given kinds are sent, to the ring buffer or to the dropped ones. -/
structure Kernel.Sends (k k' : Kernel) (kinds : List Nat) : Prop where
  sent : k'.events.length + k'.droppedEvents = k.events.length + k.droppedEvents + kinds.length
  ofKind : ∀ n, k'.events.countP (·.kind = n) ≤ k.events.countP (·.kind = n) + kinds.count n

namespace Kernel.Sends

theorem of_eq (he : k'.events = k.events) (hd : k'.droppedEvents = k.droppedEvents) : k.Sends k' [] :=
  ⟨by rw [he, hd, List.length_nil, Nat.add_zero], fun n => by rw [he, List.count_nil, Nat.add_zero]⟩

theorem trans (h : k.Sends k' kinds) (h' : k'.Sends k'' kinds') : k.Sends k'' (kinds ++ kinds') := by
  refine ⟨?_, fun n => ?_⟩
  · rw [h'.sent, h.sent, List.length_append, Nat.add_assoc]
  · have := h.ofKind n
    have := h'.ofKind n
    rw [List.count_append]
    omega

theorem emit {ctx : ProbeContext} {kind tid now id : Nat} {stackId : Int} {weight : Nat} (he : k'.events = k.events)
    (hd : k'.droppedEvents = k.droppedEvents) : k.Sends (k'.emit ctx kind tid now id stackId weight) [kind] := by
  unfold Kernel.emit
  split
  · refine ⟨?_, fun n => ?_⟩
    · simp only [he, hd, List.length_append, List.length_singleton]
      omega
    · simp [he, List.countP_singleton, List.count_singleton]
  · refine ⟨?_, fun n => ?_⟩
    · simp only [he, hd, List.length_singleton]
      omega
    · simp [he]

end Kernel.Sends

/-! ## The programs -/

theorem sliceEntry_offcpuByTid (k : Kernel) (ctx : EntryContext) :
    (k.sliceEntry config ctx).offcpuByTid = k.offcpuByTid := by
  unfold Kernel.sliceEntry
  split
  · exact emit_offcpuByTid
  · split
    · exact emit_offcpuByTid
    · rfl

/-- An entry sends an entry record or a violation, unless the map refuses it. -/
theorem sliceEntry_sends (m : Machine) (ctx : EntryContext) : ∃ kinds,
    m.kernel.Sends (m.kernel.sliceEntry config ctx) kinds ∧ kinds.count 1 ≤ 1 ∧ kinds.count 2 = 0 ∧ kinds.count 5 = 0 ∧
      kinds.length + (m.uncounted (.entry ctx)).count .refused = 1 + (m.uncounted (.entry ctx)).count .sampled := by
  unfold Kernel.sliceEntry
  cases ha : m.kernel.activeByTid.lookup ctx.tid with
  | some active => exact ⟨[4], .emit rfl rfl, by decide, by decide, by decide, by simp [Machine.uncounted, ha]⟩
  | none =>
      cases hu : ctx.updated with
      | true => exact ⟨[1], .emit rfl rfl, by decide, by decide, by decide, by simp [Machine.uncounted, hu]⟩
      | false => exact ⟨[], .of_eq rfl rfl, by decide, by decide, by decide, by simp [Machine.uncounted, ha, hu]⟩

theorem sliceReturnDeletes_sends (k : Kernel) (tid : Nat) : k.Sends (k.sliceReturnDeletes tid) [] := by
  unfold Kernel.sliceReturnDeletes
  dsimp only
  split <;> exact .of_eq rfl rfl

/-- A sample sends one record, or none. -/
theorem sliceSample_sends (m : Machine) (ctx : SampleContext) : ∃ kinds,
    m.kernel.Sends (m.kernel.sliceSample config ctx) kinds ∧ kinds.count 1 = 0 ∧ kinds.count 2 = 0 ∧ kinds.count 5 = 0 ∧
      kinds.length + (m.uncounted (.sample ctx)).count .refused = (m.uncounted (.sample ctx)).count .sampled := by
  unfold Kernel.sliceSample
  cases ha : m.kernel.activeByTid.lookup ctx.tid with
  | none => exact ⟨[], .of_eq rfl rfl, by decide, by decide, by decide, by simp [Machine.uncounted, ha]⟩
  | some active =>
      by_cases hs : ctx.stackId < 0
      · refine ⟨[], ?_, by decide, by decide, by decide, by simp [Machine.uncounted, not_le.mpr hs]⟩
        simpa [hs] using .of_eq rfl rfl
      · refine ⟨[3], ?_, by decide, by decide, by decide, by simp [Machine.uncounted, ha, not_lt.mp hs]⟩
        simpa [hs] using .emit rfl rfl

theorem sliceSample_offcpuByTid (k : Kernel) (ctx : SampleContext) :
    (k.sliceSample config ctx).offcpuByTid = k.offcpuByTid := by
  unfold Kernel.sliceSample
  split
  · rfl
  · split
    · rfl
    · exact emit_offcpuByTid

/-- The switch-out is counted when it may open an interval. -/
theorem sliceSwitchOut_counts (k : Kernel) (d : ProbeDiagnostics) (ctx : SwitchContext) :
    k.Sends (k.sliceSwitchOut ctx) [] ∧ ∃ n, (k.sliceSwitchOut ctx).offcpuByTid.size ≤ k.offcpuByTid.size + n ∧
      d.sliceSwitchOut k ctx = { d with schedulerSwitchOuts := d.schedulerSwitchOuts + n } := by
  unfold Kernel.sliceSwitchOut ProbeDiagnostics.sliceSwitchOut
  cases k.activeByTid.lookup ctx.tid with
  | none => exact ⟨.of_eq rfl rfl, 0, Nat.le_refl _, rfl⟩
  | some active =>
      refine ⟨.of_eq rfl rfl, 1, ?_, rfl⟩
      simp only [bpfMapUpdate]
      split
      · exact Map.size_insert_le ..
      · exact Nat.le_succ _

/-- Each record of an interval is counted, and closes one. -/
theorem sliceSwitchIn_counts (k : Kernel) (d : ProbeDiagnostics) (ctx : SwitchContext) : ∃ kinds,
    k.Sends (k.sliceSwitchIn ctx) kinds ∧ kinds.count 1 = 0 ∧ kinds.count 2 = 0 ∧ kinds.count 5 = kinds.length ∧
      (k.sliceSwitchIn ctx).offcpuByTid.size + kinds.length ≤ k.offcpuByTid.size ∧
      d.sliceSwitchIn k ctx = { d with schedulerIntervals := d.schedulerIntervals + kinds.length } := by
  unfold Kernel.sliceSwitchIn ProbeDiagnostics.sliceSwitchIn
  cases k.traceTidToBpfTid.lookup ctx.nextPid with
  | none => exact ⟨[], .of_eq rfl rfl, by decide, by decide, by decide, Nat.le_refl _, rfl⟩
  | some next =>
      dsimp only
      cases ho : k.offcpuByTid.lookup next with
      | none =>
          cases k.activeByTid.lookup next with
          | none => exact ⟨[], .of_eq rfl rfl, by decide, by decide, by decide, Map.size_erase_le .., rfl⟩
          | some active => exact ⟨[], .of_eq rfl rfl, by decide, by decide, by decide, Nat.le_refl _, rfl⟩
      | some start =>
          cases k.activeByTid.lookup next with
          | none => exact ⟨[], .of_eq rfl rfl, by decide, by decide, by decide, Map.size_erase_le .., rfl⟩
          | some active =>
              refine ⟨[5], (Kernel.Sends.emit rfl rfl).trans (.of_eq rfl rfl), by decide, by decide, by decide, ?_, rfl⟩
              simp only [emit_offcpuByTid]
              exact (Map.size_erase_of_mem (mem_of_lookup ho)).le

/-! ## Blocked samples -/

/-- A sample off the CPU comes from the record of an interval. -/
theorem exists_interval_of_offCpu {request : CaptureRequest} {resolver : Resolver} {store : StackStore}
    {names : Map Nat String} {now finishNs eventsDropped samplesDropped : Nat} {release : String} {events : List Event}
    {x : Sample} (hx : x ∈ (capture request resolver store names now release eventsDropped samplesDropped events
      finishNs).samples) (hs : x.state = .offCpu) : ∃ e ∈ events, e.kind = 5 := by
  obtain ⟨ks, ss, h⟩ :=
    collected_capture request resolver store now release eventsDropped samplesDropped events finishNs
  simp only [capture, replay_eq, h.samples_eq] at hx
  have hres : resolve ks x ∈ ss.map (resolve ks) := List.mem_map_of_mem hx
  rw [h.resolved] at hres
  obtain ⟨y, hy, heq⟩ := List.mem_map.mp hres
  obtain ⟨-, b, -, hm, -⟩ := mem_keptSamples.mp hy
  obtain ⟨z, hz, hzs⟩ := List.mem_filterMap.mp hm
  obtain ⟨⟨kind, tid, ts, id, stackId, cpu, weight⟩, he, rfl⟩ := mem_translateAll.mp hz
  have hstate : y.2.state = .offCpu := (congrArg ResolvedSample.state heq).trans hs
  refine ⟨_, he, ?_⟩
  cases kindCase kind with
  | offCpu => rfl
  | sample =>
      simp only [translate, CollectorEvent.sampleOf] at hzs
      split at hzs
      · rw [← Option.some.inj hzs] at hstate
        cases hstate
      · cases hzs
  | entry | ret | violation => cases hzs
  | unknown hk => simp [translate, CollectorEvent.sampleOf, hk] at hzs

/-! ## Runs -/

variable {s s' : Counted} {a : KernelAction} {uncounted : List Uncounted}

theorem Counted.Accounts.initial : ({} : Counted).Accounts [] := by
  constructor <;> simp [Map.size]

/-- What a step adds to the records, to the counters and to the pending switch-outs. -/
theorem Counted.Accounts.sends {m : Machine} {d : ProbeDiagnostics} {added : List Uncounted} (h : s.Accounts uncounted)
    (hsend : s.machine.kernel.Sends m.kernel kinds) (hacc : d.acceptedEntries = d.rawEntries)
    (hrec : kinds.length + added.count .refused + (s.diagnostics.rawEntries + s.diagnostics.rawReturns +
      s.diagnostics.schedulerIntervals) = d.rawEntries + d.rawReturns + d.schedulerIntervals + added.count .sampled)
    (h1 : s.diagnostics.rawEntries + kinds.count 1 ≤ d.rawEntries)
    (h2 : s.diagnostics.rawReturns + kinds.count 2 ≤ d.rawReturns)
    (h5 : s.diagnostics.schedulerIntervals + kinds.count 5 ≤ d.schedulerIntervals)
    (hout : s.diagnostics.schedulerSwitchOuts + d.schedulerIntervals + m.kernel.offcpuByTid.size ≤
      d.schedulerSwitchOuts + s.diagnostics.schedulerIntervals + s.machine.kernel.offcpuByTid.size) :
    Counted.Accounts ⟨m, d⟩ (uncounted ++ added) := by
  have hsent := hsend.sent
  have hrecords := h.records
  have hswitch := h.switchOuts
  constructor
  · exact hacc
  · simp only [List.count_append]
    omega
  · exact (hsend.ofKind 1).trans ((Nat.add_le_add_right h.entries _).trans h1)
  · exact (hsend.ofKind 2).trans ((Nat.add_le_add_right h.returns _).trans h2)
  · exact (hsend.ofKind 5).trans ((Nat.add_le_add_right h.intervals _).trans h5)
  · simp only
    omega

theorem Counted.Accounts.step (h : s.Accounts uncounted) (hs : s.step config a = some s') :
    s'.Accounts (uncounted ++ s.machine.uncounted a) := by
  obtain ⟨m', hm, rfl⟩ := Option.map_eq_some_iff.mp hs
  have hacc := h.accepted
  cases Machine.steps_of_step hm with
  | @entry ctx =>
      obtain ⟨kinds, hsend, h1, h2, h5, hcount⟩ := sliceEntry_sends s.machine ctx
      refine h.sends hsend ?_ ?_ ?_ ?_ ?_ ?_ <;>
        simp only [ProbeDiagnostics.count, ProbeDiagnostics.sliceEntry, sliceEntry_offcpuByTid] <;> omega
  | @unmatched ctx hnow hfree ha =>
      have heq : s.machine.kernel.sliceReturn ctx = s.machine.kernel.emit ctx 4 ctx.tid ctx.now 0 (-1) 0 := by
        simp only [Kernel.sliceReturn, ha]
      rw [heq]
      refine h.sends (.emit rfl rfl) ?_ ?_ ?_ ?_ ?_ ?_ <;>
        simp [ProbeDiagnostics.count, ProbeDiagnostics.sliceReturn, Machine.uncounted] <;> omega
  | @closed ctx active hnow hfree ha =>
      refine h.sends (.emit rfl rfl) ?_ ?_ ?_ ?_ ?_ ?_ <;>
        simp [ProbeDiagnostics.count, ProbeDiagnostics.sliceReturn, Machine.uncounted] <;> omega
  | @retDeletes tid hreturning =>
      have hsize := Map.size_erase_le s.machine.kernel.offcpuByTid tid
      refine h.sends (sliceReturnDeletes_sends _ tid) ?_ ?_ ?_ ?_ ?_ ?_ <;>
        simp [ProbeDiagnostics.count, Machine.uncounted] <;> omega
  | @sample ctx hnow =>
      obtain ⟨kinds, hsend, h1, h2, h5, hcount⟩ := sliceSample_sends s.machine ctx
      refine h.sends hsend ?_ ?_ ?_ ?_ ?_ ?_ <;>
        simp only [ProbeDiagnostics.count, sliceSample_offcpuByTid] <;> omega
  | @schedSwitch ctx hnow =>
      obtain ⟨hsendOut, n, hsizeOut, hdOut⟩ := sliceSwitchOut_counts s.machine.kernel s.diagnostics ctx
      obtain ⟨kinds, hsend, h1, h2, h5, hsize, hd⟩ :=
        sliceSwitchIn_counts (s.machine.kernel.sliceSwitchOut ctx)
          (s.diagnostics.sliceSwitchOut s.machine.kernel ctx) ctx
      rw [hdOut] at hd
      refine h.sends (hsendOut.trans hsend) ?_ ?_ ?_ ?_ ?_ ?_ <;>
        simp only [ProbeDiagnostics.count, ProbeDiagnostics.sliceSchedSwitch, hdOut, hd, Machine.uncounted,
          Kernel.sliceSchedSwitch, List.nil_append, List.count_nil] <;> omega

theorem Counted.accounts_of_run {actions : List KernelAction} (h : run (Counted.step config) {} actions = some s) :
    s.Accounts (trace (Counted.step config) (fun s a => s.machine.uncounted a) {} actions) :=
  run_trace (fun uncounted s => s.Accounts uncounted) (fun _ _ _ _ hI hs => hI.step hs) .initial h

/-- The counters do not take part in what the programs do. -/
theorem Counted.machine_of_run {actions : List KernelAction} (h : run (Counted.step config) s actions = some s') :
    run (Machine.step config) s.machine actions = some s'.machine := by
  induction actions generalizing s with
  | nil => cases h; rfl
  | cons a actions ih =>
      rw [run_cons, Option.bind_eq_some_iff] at h ⊢
      obtain ⟨t, ht, hrest⟩ := h
      obtain ⟨m, hm, rfl⟩ := Option.map_eq_some_iff.mp ht
      exact ⟨m, hm, ih hrest⟩

theorem rawEntries_count (d : ProbeDiagnostics) (k : Kernel) (a : KernelAction) :
    (d.count k a).rawEntries = d.rawEntries + if a.isEntry then 1 else 0 := by
  cases a with
  | schedSwitch ctx =>
      obtain ⟨-, n, -, hout⟩ := sliceSwitchOut_counts k d ctx
      obtain ⟨kinds, -, -, -, -, -, hin⟩ := sliceSwitchIn_counts (k.sliceSwitchOut ctx) (d.sliceSwitchOut k ctx) ctx
      rw [hout] at hin
      simp only [ProbeDiagnostics.count, ProbeDiagnostics.sliceSchedSwitch, hout, hin]
      rfl
  | entry | ret | retDeletes | sample => rfl

/-- The counter of the entries is the number of entry programs. -/
theorem Counted.rawEntries_of_run {actions : List KernelAction} (h : run (Counted.step config) s actions = some s') :
    s'.diagnostics.rawEntries = s.diagnostics.rawEntries + actions.countP KernelAction.isEntry := by
  induction actions generalizing s with
  | nil => cases h; simp
  | cons a actions ih =>
      rw [run_cons, Option.bind_eq_some_iff] at h
      obtain ⟨t, ht, hrest⟩ := h
      obtain ⟨m, -, rfl⟩ := Option.map_eq_some_iff.mp ht
      rw [ih hrest, rawEntries_count, List.countP_cons]
      omega

end SliceProfiler
