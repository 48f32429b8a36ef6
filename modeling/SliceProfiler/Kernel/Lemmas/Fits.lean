import SliceProfiler.Capture.Lemmas.Fits
import SliceProfiler.Kernel.Lemmas.OffCpu

/-! # The numbers of the kernel records are in range -/

namespace SliceProfiler

open Lib

/-! ## What the programs find -/

structure ProbeContext.Fits (ctx : ProbeContext) : Prop where
  tid : ctx.tid ≤ u32Max
  now : ctx.now ≤ u64Max
  cpu : ctx.cpu ≤ u32Max

structure SampleContext.Fits (ctx : SampleContext) : Prop extends ctx.toProbeContext.Fits where
  stackId : -0x80000000 ≤ ctx.stackId ∧ ctx.stackId < 0x80000000

def KernelAction.Fits : KernelAction → Prop
  | .entry ctx => ctx.toProbeContext.Fits
  | .ret ctx => ctx.Fits
  | .retDeletes _ => True
  | .sample ctx => ctx.Fits
  | .schedSwitch ctx => ctx.toSampleContext.Fits

instance : DecidablePred ProbeContext.Fits := fun ctx =>
  decidable_of_iff (ctx.tid ≤ u32Max ∧ ctx.now ≤ u64Max ∧ ctx.cpu ≤ u32Max)
    ⟨fun ⟨htid, hnow, hcpu⟩ => ⟨htid, hnow, hcpu⟩, fun h => ⟨h.tid, h.now, h.cpu⟩⟩

instance : DecidablePred SampleContext.Fits := fun ctx =>
  decidable_of_iff (ctx.toProbeContext.Fits ∧ -0x80000000 ≤ ctx.stackId ∧ ctx.stackId < 0x80000000)
    ⟨fun ⟨h, hstack⟩ => ⟨h, hstack⟩, fun h => ⟨h.toFits, h.stackId⟩⟩

instance : DecidablePred KernelAction.Fits := fun
  | .entry ctx => inferInstanceAs (Decidable ctx.toProbeContext.Fits)
  | .ret ctx => inferInstanceAs (Decidable ctx.Fits)
  | .retDeletes _ => inferInstanceAs (Decidable True)
  | .sample ctx => inferInstanceAs (Decidable ctx.Fits)
  | .schedSwitch ctx => inferInstanceAs (Decidable ctx.toSampleContext.Fits)

/-! ## What the programs keep -/

structure OffcpuStart.Fits (start : OffcpuStart) : Prop where
  timestampNs : start.timestampNs ≤ u64Max
  stackId : -0x80000000 ≤ start.stackId ∧ start.stackId < 0x80000000

structure Kernel.Fits (k : Kernel) : Prop where
  active : ∀ tid a, k.activeByTid.lookup tid = some a → a.id ≤ u64Max
  offcpu : ∀ tid start, k.offcpuByTid.lookup tid = some start → start.Fits
  threads : ∀ traceTid tid, k.traceTidToBpfTid.lookup traceTid = some tid → tid ≤ u32Max
  events : ∀ e ∈ k.events, e.Fits

namespace Kernel

variable {k : Kernel} {config : SliceConfig}

theorem Fits.initial : ({} : Kernel).Fits where
  active _ _ h := by cases h
  offcpu _ _ h := by cases h
  threads _ _ h := by cases h
  events _ h := by cases h

theorem Fits.emit (h : k.Fits) {ctx : ProbeContext} (hc : ctx.Fits) {kind tid id weightNs : Nat} {stackId : Int}
    (hk : kind ≤ u32Max) (ht : tid ≤ u32Max) (hid : id ≤ u64Max)
    (hs : -0x80000000 ≤ stackId ∧ stackId < 0x80000000) (hw : weightNs ≤ u64Max) :
    (k.emit ctx kind tid ctx.now id stackId weightNs).Fits := by
  unfold Kernel.emit
  split
  · refine { h with events := fun e he => ?_ }
    rcases List.mem_append.mp he with he | he
    · exact h.events e he
    · rw [List.mem_singleton.mp he]
      exact ⟨hk, ht, hc.now, hid, hs, hc.cpu, hw⟩
  · exact { h with }

theorem noStack_fits : -0x80000000 ≤ (-1 : Int) ∧ (-1 : Int) < 0x80000000 := by decide

theorem Fits.emitBoundary (h : k.Fits) {ctx : ProbeContext} (hc : ctx.Fits) {kind id : Nat} (hk : kind ≤ u32Max)
    (hid : id ≤ u64Max) : (k.emit ctx kind ctx.tid ctx.now id (-1) 0).Fits :=
  h.emit hc hk hc.tid hid noStack_fits (Nat.zero_le _)

/-- The counter of the ids never falls. -/
theorem le_nextInvocationId_sliceEntry (k : Kernel) (ctx : EntryContext) :
    k.nextInvocationId ≤ (k.sliceEntry config ctx).nextInvocationId := by
  unfold Kernel.sliceEntry
  split
  · rw [emit_nextInvocationId]
  · split
    · rw [emit_nextInvocationId]
      exact Nat.le_succ _
    · exact Nat.le_succ _

theorem Fits.sliceEntry (h : k.Fits) {ctx : EntryContext} (hc : ctx.toProbeContext.Fits)
    (hnext : (k.sliceEntry config ctx).nextInvocationId ≤ u64Max) : (k.sliceEntry config ctx).Fits := by
  unfold Kernel.sliceEntry at hnext ⊢
  cases ha : k.activeByTid.lookup ctx.tid with
  | some a => exact h.emitBoundary hc (by decide) (Nat.zero_le _)
  | none =>
      simp only [ha] at hnext ⊢
      split
      · rename_i hu
        rw [if_pos hu, emit_nextInvocationId] at hnext
        refine Fits.emitBoundary ?_ hc (by decide) hnext
        refine { h with active := fun tid a hl => ?_ }
        rcases of_lookup_insert hl with ⟨-, rfl⟩ | ⟨-, hl⟩
        · exact hnext
        · exact h.active tid a hl
      · exact { h with }

theorem Fits.sliceReturnDeletes (h : k.Fits) (tid : Nat) : (k.sliceReturnDeletes tid).Fits := by
  have herase : { k with
      activeByTid := k.activeByTid.erase tid, offcpuByTid := k.offcpuByTid.erase tid }.Fits :=
    { h with
      active := fun t a hl => h.active t a (of_lookup_erase hl).2
      offcpu := fun t s hl => h.offcpu t s (of_lookup_erase hl).2 }
  simp only [Kernel.sliceReturnDeletes]
  cases k.bpfTidToTraceTid.lookup tid with
  | none => exact herase
  | some traceTid => exact { herase with threads := fun t b hl => h.threads t b (of_lookup_erase hl).2 }

theorem Fits.sliceReturn (h : k.Fits) {ctx : ProbeContext} (hc : ctx.Fits) : (k.sliceReturn ctx).Fits := by
  unfold Kernel.sliceReturn
  cases ha : k.activeByTid.lookup ctx.tid with
  | none => exact h.emitBoundary hc (by decide) (Nat.zero_le _)
  | some a => exact (h.emitBoundary hc (by decide) (h.active _ _ ha)).sliceReturnDeletes _

theorem Fits.sliceSample (h : k.Fits) (hperiod : config.samplePeriodNs ≤ u64Max) {ctx : SampleContext}
    (hc : ctx.Fits) : (k.sliceSample config ctx).Fits := by
  unfold Kernel.sliceSample
  cases ha : k.activeByTid.lookup ctx.tid with
  | none => exact h
  | some a =>
      dsimp only
      split
      · exact { h with }
      · exact h.emit hc.toFits (by decide) hc.tid (h.active _ _ ha) hc.stackId hperiod

theorem Fits.sliceSwitchOut (h : k.Fits) {ctx : SwitchContext} (hc : ctx.toSampleContext.Fits) :
    (k.sliceSwitchOut ctx).Fits := by
  unfold Kernel.sliceSwitchOut
  cases ha : k.activeByTid.lookup ctx.tid with
  | none => exact h
  | some a =>
      refine { h with offcpu := fun t s hl => ?_, threads := fun t b hl => ?_ }
      · rcases lookup_of_bpfMapUpdate hl with ⟨-, rfl⟩ | hl
        · exact ⟨hc.now, hc.stackId⟩
        · exact h.offcpu t s hl
      · rcases lookup_of_bpfMapUpdate hl with ⟨-, rfl⟩ | hl
        · exact hc.tid
        · exact h.threads t b hl

theorem Fits.eraseOffcpu (h : k.Fits) (tid : Nat) : { k with offcpuByTid := k.offcpuByTid.erase tid }.Fits :=
  { h with offcpu := fun t s hl => h.offcpu t s (of_lookup_erase hl).2 }

theorem Fits.sliceSwitchIn (h : k.Fits) {ctx : SwitchContext} (hc : ctx.toSampleContext.Fits) :
    (k.sliceSwitchIn ctx).Fits := by
  unfold Kernel.sliceSwitchIn
  cases hl : k.traceTidToBpfTid.lookup ctx.nextPid with
  | none => exact h
  | some tid =>
      dsimp only
      split
      · rename_i start active hstart hactive
        have hs := h.offcpu _ _ hstart
        refine (h.emit hc.toFits (by decide) (h.threads _ _ hl) (h.active _ _ hactive) hs.stackId ?_).eraseOffcpu tid
        split
        · exact (Nat.sub_le _ _).trans hc.now
        · exact Nat.zero_le _
      · exact h.eraseOffcpu tid
      · exact h

end Kernel

variable {config : SliceConfig} {m m' : Machine}

theorem sliceSwitchIn_nextInvocationId {k : Kernel} {ctx : SwitchContext} :
    (k.sliceSwitchIn ctx).nextInvocationId = k.nextInvocationId := by
  unfold Kernel.sliceSwitchIn
  split
  · rfl
  · split
    · exact emit_nextInvocationId
    · rfl
    · rfl

theorem sliceSample_nextInvocationId {k : Kernel} {ctx : SampleContext} :
    (k.sliceSample config ctx).nextInvocationId = k.nextInvocationId := by
  unfold Kernel.sliceSample
  split
  · rfl
  · split
    · rfl
    · exact emit_nextInvocationId

/-- As long as the ids fit, everything does. -/
def Machine.Fits (m : Machine) : Prop := m.kernel.nextInvocationId ≤ u64Max → m.kernel.Fits

theorem Machine.Fits.step (h : m.Fits) (hperiod : config.samplePeriodNs ≤ u64Max) {a : KernelAction} (ha : a.Fits)
    (hs : m.step config a = some m') : m'.Fits := by
  intro hnext
  cases Machine.steps_of_step hs with
  | entry => exact (h ((Kernel.le_nextInvocationId_sliceEntry _ _).trans hnext)).sliceEntry ha hnext
  | unmatched _ _ hl =>
      simp only [Kernel.sliceReturn, hl, emit_nextInvocationId] at hnext
      exact (h hnext).sliceReturn ha
  | closed _ _ hl =>
      rw [emit_nextInvocationId] at hnext
      exact (h hnext).emitBoundary ha (by decide) ((h hnext).active _ _ hl)
  | @retDeletes tid => exact (h (sliceReturnDeletes_nextInvocationId ▸ hnext)).sliceReturnDeletes tid
  | sample => exact (h (sliceSample_nextInvocationId ▸ hnext)).sliceSample hperiod ha
  | schedSwitch =>
      dsimp only at hnext
      rw [Kernel.sliceSchedSwitch, sliceSwitchIn_nextInvocationId, sliceSwitchOut_nextInvocationId] at hnext
      exact ((h hnext).sliceSwitchOut ha).sliceSwitchIn ha

/-! ## Counts -/

/-- How far the counter of the ids, the records and the counters of the losses have come. -/
def Kernel.progress (k : Kernel) : Nat := k.nextInvocationId + k.events.length + k.droppedEvents + k.droppedSamples

theorem progress_emit {k : Kernel} {ctx : ProbeContext} {kind tid now id weightNs : Nat} {stackId : Int} :
    (k.emit ctx kind tid now id stackId weightNs).progress = k.progress + 1 := by
  unfold Kernel.emit Kernel.progress
  split
  · rw [List.length_append, List.length_singleton]
    dsimp only
    omega
  · dsimp only
    omega

@[simp] theorem progress_sliceReturnDeletes {k : Kernel} {tid : Nat} :
    (k.sliceReturnDeletes tid).progress = k.progress := by
  unfold Kernel.sliceReturnDeletes
  dsimp only
  split
  · rfl
  · rfl

theorem progress_sliceEntry_le (k : Kernel) (ctx : EntryContext) :
    (k.sliceEntry config ctx).progress ≤ k.progress + 2 := by
  unfold Kernel.sliceEntry
  split
  · rw [progress_emit]
    omega
  · split
    · rw [progress_emit]
      simp only [Kernel.progress]
      omega
    · simp only [Kernel.progress]
      omega

theorem progress_sliceReturn_le (k : Kernel) (ctx : ProbeContext) : (k.sliceReturn ctx).progress ≤ k.progress + 1 := by
  unfold Kernel.sliceReturn
  split
  · exact progress_emit.le
  · rw [progress_sliceReturnDeletes]
    exact progress_emit.le

theorem progress_sliceSample_le (k : Kernel) (ctx : SampleContext) :
    (k.sliceSample config ctx).progress ≤ k.progress + 1 := by
  unfold Kernel.sliceSample
  split
  · exact Nat.le_succ _
  · split
    · exact Nat.le_refl _
    · exact progress_emit.le

theorem progress_sliceSwitchOut_le (k : Kernel) (ctx : SwitchContext) :
    (k.sliceSwitchOut ctx).progress ≤ k.progress + 1 := by
  unfold Kernel.sliceSwitchOut
  split
  · exact Nat.le_succ _
  · simp only [Kernel.progress]
    split
    · exact Nat.le_refl _
    · exact Nat.le_succ _

theorem progress_sliceSwitchIn_le (k : Kernel) (ctx : SwitchContext) :
    (k.sliceSwitchIn ctx).progress ≤ k.progress + 1 := by
  unfold Kernel.sliceSwitchIn
  split
  · exact Nat.le_succ _
  · split
    · exact progress_emit.le
    · exact Nat.le_succ _
    · exact Nat.le_succ _

theorem Machine.progress_step_le {a : KernelAction} (hs : m.step config a = some m') :
    m'.kernel.progress ≤ m.kernel.progress + 2 := by
  cases Machine.steps_of_step hs with
  | entry => exact progress_sliceEntry_le _ _
  | unmatched => exact (progress_sliceReturn_le _ _).trans (Nat.le_succ _)
  | closed => exact progress_emit.le.trans (Nat.le_succ _)
  | retDeletes => exact progress_sliceReturnDeletes.le.trans (Nat.le_add_right _ _)
  | sample => exact (progress_sliceSample_le _ _).trans (Nat.le_succ _)
  | schedSwitch =>
      exact (progress_sliceSwitchIn_le _ _).trans (Nat.add_le_add_right (progress_sliceSwitchOut_le _ _) 1)

theorem Machine.progress_of_run {actions : List KernelAction} (h : run (Machine.step config) {} actions = some m) :
    m.kernel.progress ≤ 1 + 2 * actions.length :=
  run_le (fun m : Machine => m.kernel.progress) (fun _ _ _ hs => Machine.progress_step_le hs) h

theorem Machine.fits_of_run (hperiod : config.samplePeriodNs ≤ u64Max) {actions : List KernelAction}
    (ha : ∀ a ∈ actions, a.Fits) (h : run (Machine.step config) {} actions = some m)
    (hnext : m.kernel.nextInvocationId ≤ u64Max) : m.kernel.Fits :=
  run_invariant Machine.Fits (C := fun _ a => a.Fits) (fun _ _ _ hI hC hs => hI.step hperiod hC hs)
    (fun _ => .initial) (along_of_forall ha) h hnext

end SliceProfiler
