import SliceProfiler.Kernel.Lemmas.OffCpu

/-!
# The maps between the identities of a thread

`bpf_tid_to_trace_tid` and `trace_tid_to_bpf_tid` hold the same pairs, and only active threads have a pair or a
pending off-CPU start.
-/

namespace SliceProfiler

open Lib

variable {traceTid : Nat → Nat} {config : SliceConfig} {k : Kernel} {s : Threads}

/-! ## The effect of the programs on the two maps -/

section Effect

variable {ctx : ProbeContext} {kind tid now id : Nat} {stackId : Int} {weight : Nat}

@[simp] theorem emit_traceTidToBpfTid :
    (k.emit ctx kind tid now id stackId weight).traceTidToBpfTid = k.traceTidToBpfTid := by
  unfold Kernel.emit; split <;> rfl

@[simp] theorem emit_bpfTidToTraceTid :
    (k.emit ctx kind tid now id stackId weight).bpfTidToTraceTid = k.bpfTidToTraceTid := by
  unfold Kernel.emit; split <;> rfl

end Effect

/-! ## The invariant -/

/-- Each pair is one of an active thread and its trace id. -/
structure Kernel.Linked (traceTid : Nat → Nat) (k : Kernel) : Prop where
  offcpu : ∀ tid ∈ k.offcpuByTid, tid ∈ k.activeByTid
  known : ∀ tid trace, k.bpfTidToTraceTid.lookup tid = some trace → tid ∈ k.activeByTid ∧ trace = traceTid tid
  inverse : Inverse k.bpfTidToTraceTid k.traceTidToBpfTid

/-- The trace id of the thread is fixed, and the two maps take it. -/
def SwitchContext.Tracked (traceTid : Nat → Nat) (ctx : SwitchContext) : Prop :=
  ctx.prevPid = traceTid ctx.tid ∧ ctx.traceTidUpdated = true ∧ ctx.bpfTidUpdated = true

/-- None of the four maps has an entry for the thread. -/
structure Kernel.Absent (traceTid : Nat → Nat) (k : Kernel) (tid : Nat) : Prop where
  active : tid ∉ k.activeByTid
  offcpu : tid ∉ k.offcpuByTid
  bpf : tid ∉ k.bpfTidToTraceTid
  trace : traceTid tid ∉ k.traceTidToBpfTid
  unnamed : ∀ trace, k.traceTidToBpfTid.lookup trace ≠ some tid

namespace Kernel.Linked

theorem initial : ({} : Kernel).Linked traceTid :=
  ⟨fun _ h => absurd h (AList.notMem_empty _), fun _ _ h => by simp at h, Inverse.empty⟩

/-- The two maps stay, while threads become active and starts go. -/
theorem mono {k' : Kernel} (h : k.Linked traceTid) (hactive : ∀ tid ∈ k.activeByTid, tid ∈ k'.activeByTid)
    (hoff : ∀ tid ∈ k'.offcpuByTid, tid ∈ k.offcpuByTid) (htrace : k'.traceTidToBpfTid = k.traceTidToBpfTid)
    (hbpf : k'.bpfTidToTraceTid = k.bpfTidToTraceTid) : k'.Linked traceTid := by
  refine ⟨fun tid ht => hactive tid (h.offcpu tid (hoff tid ht)), fun tid trace hl => ?_, ?_⟩
  · rw [hbpf] at hl
    exact ⟨hactive tid (h.known tid trace hl).1, (h.known tid trace hl).2⟩
  · rw [hbpf, htrace]; exact h.inverse

theorem emit {ctx : ProbeContext} {kind tid now id : Nat} {stackId : Int} {weight : Nat}
    (h : k.Linked traceTid) : (k.emit ctx kind tid now id stackId weight).Linked traceTid :=
  h.mono (by simp) (by simp) (by simp) (by simp)

theorem sliceEntry {ctx : EntryContext} (h : k.Linked traceTid) : (k.sliceEntry config ctx).Linked traceTid := by
  unfold Kernel.sliceEntry
  split
  · exact h.emit
  · dsimp only
    split
    · refine Linked.emit (h.mono (fun tid ht => ?_) (fun _ ht => ht) rfl rfl)
      exact (AList.mem_insert _).mpr (.inr ht)
    · exact h.mono (fun _ ht => ht) (fun _ ht => ht) rfl rfl

theorem sliceReturnDeletes {tid : Nat} (h : k.Linked traceTid) : (k.sliceReturnDeletes tid).Linked traceTid := by
  have hoff : ∀ t ∈ k.offcpuByTid.erase tid, t ∈ k.activeByTid.erase tid := by
    intro t ht
    obtain ⟨hne, ht⟩ := AList.mem_erase.mp ht
    exact AList.mem_erase.mpr ⟨hne, h.offcpu t ht⟩
  have hknown : ∀ t trace, t ≠ tid → k.bpfTidToTraceTid.lookup t = some trace →
      t ∈ k.activeByTid.erase tid ∧ trace = traceTid t := by
    intro t trace hne hl
    exact ⟨AList.mem_erase.mpr ⟨hne, (h.known t trace hl).1⟩, (h.known t trace hl).2⟩
  unfold Kernel.sliceReturnDeletes
  dsimp only
  split
  · rename_i traceTid' hl
    refine ⟨hoff, fun t trace ht => ?_, h.inverse.erase hl⟩
    obtain ⟨hne, ht⟩ := of_lookup_erase ht
    exact hknown t trace hne ht
  · rename_i hl
    refine ⟨hoff, fun t trace ht => hknown t trace ?_ ht, h.inverse⟩
    rintro rfl
    rw [hl] at ht
    cases ht

theorem sliceReturn {ctx : ProbeContext} (h : k.Linked traceTid) :
    (k.sliceReturn ctx).Linked traceTid := by
  unfold Kernel.sliceReturn
  split
  · exact h.emit
  · exact h.emit.sliceReturnDeletes

theorem sliceSample {ctx : SampleContext} (h : k.Linked traceTid) : (k.sliceSample config ctx).Linked traceTid := by
  unfold Kernel.sliceSample
  split
  · exact h
  · split
    · exact h.mono (fun _ ht => ht) (fun _ ht => ht) rfl rfl
    · exact h.emit

/-- An active thread that goes out is paired with its trace id. -/
theorem sliceSwitchOut (hf : Function.Injective traceTid) {ctx : SwitchContext} (h : k.Linked traceTid)
    (hc : ctx.Tracked traceTid) : (k.sliceSwitchOut ctx).Linked traceTid := by
  obtain ⟨hprev, htrace, hbpf⟩ := hc
  unfold Kernel.sliceSwitchOut
  split
  · exact h
  · rename_i a ha
    have hactive : ctx.tid ∈ k.activeByTid := mem_of_lookup ha
    simp only [htrace, hbpf, hprev, bpfMapUpdate, if_true]
    refine ⟨fun tid ht => ?_, fun tid trace hl => ?_, h.inverse.insert ?_ ?_⟩
    · dsimp only at ht
      split at ht
      · rcases (AList.mem_insert _).mp ht with rfl | ht
        · exact hactive
        · exact h.offcpu tid ht
      · exact h.offcpu tid ht
    · rcases of_lookup_insert hl with ⟨rfl, rfl⟩ | ⟨-, hl⟩
      · exact ⟨hactive, rfl⟩
      · exact h.known tid trace hl
    · exact fun trace hl => (h.known ctx.tid trace hl).2
    · -- a pair with the same trace id belongs to the same thread
      intro tid hl
      exact (hf (h.known tid _ ((h.inverse tid _).mpr hl)).2).symm

theorem sliceSwitchIn {ctx : SwitchContext} (h : k.Linked traceTid) : (k.sliceSwitchIn ctx).Linked traceTid := by
  unfold Kernel.sliceSwitchIn
  split
  · exact h
  · split
    · exact h.emit.mono (fun _ ht => ht) (fun tid ht => (AList.mem_erase.mp ht).2) rfl rfl
    · exact h.mono (fun _ ht => ht) (fun tid ht => (AList.mem_erase.mp ht).2) rfl rfl
    · exact h

theorem sliceSchedSwitch (hf : Function.Injective traceTid) {ctx : SwitchContext} (h : k.Linked traceTid)
    (hc : ctx.Tracked traceTid) : (k.sliceSchedSwitch ctx).Linked traceTid :=
  (h.sliceSwitchOut hf hc).sliceSwitchIn

theorem absent (hf : Function.Injective traceTid) {tid : Nat} (h : k.Linked traceTid) (ht : tid ∉ k.activeByTid) :
    k.Absent traceTid tid := by
  have hbpf : ∀ trace, k.bpfTidToTraceTid.lookup tid ≠ some trace := fun trace hl => ht (h.known tid trace hl).1
  refine ⟨ht, mt (h.offcpu tid) ht, fun hm => ?_, fun hm => ?_,
    fun trace hl => hbpf trace ((h.inverse tid trace).mpr hl)⟩
  · obtain ⟨trace, hl⟩ := exists_lookup_of_mem hm
    exact hbpf trace hl
  · obtain ⟨t, hl⟩ := exists_lookup_of_mem hm
    have hl := (h.inverse t _).mpr hl
    rw [← hf (h.known t _ hl).2] at hl
    exact hbpf _ hl

end Kernel.Linked

/-! ## Runs -/

def Program.Tracked (traceTid : Nat → Nat) : Program → Prop
  | .schedSwitch ctx => ctx.Tracked traceTid
  | _ => True

/-- The maps are linked, and an active thread is inside the function. -/
structure Threads.Consistent (traceTid : Nat → Nat) (s : Threads) : Prop where
  linked : s.kernel.Linked traceTid
  inside : ∀ tid ∈ s.kernel.activeByTid, tid ∈ s.inside

theorem mem_active_sliceEntry {ctx : EntryContext} {tid : Nat} (h : tid ∈ (k.sliceEntry config ctx).activeByTid) :
    tid = ctx.tid ∨ tid ∈ k.activeByTid := by
  unfold Kernel.sliceEntry at h
  split at h
  · rw [emit_activeByTid] at h
    exact .inr h
  · dsimp only at h
    split at h
    · rw [emit_activeByTid] at h
      exact (AList.mem_insert _).mp h
    · exact .inr h

theorem mem_active_sliceReturn {ctx : ProbeContext} {tid : Nat} :
    tid ∈ (k.sliceReturn ctx).activeByTid ↔ tid ≠ ctx.tid ∧ tid ∈ k.activeByTid := by
  unfold Kernel.sliceReturn
  split
  · rename_i hnone
    rw [emit_activeByTid, iff_and_self]
    rintro hm rfl
    exact AList.lookup_eq_none.mp hnone hm
  · rw [sliceReturnDeletes_activeByTid, emit_activeByTid, AList.mem_erase]

@[simp] theorem sliceSample_activeByTid {ctx : SampleContext} :
    (k.sliceSample config ctx).activeByTid = k.activeByTid := by
  unfold Kernel.sliceSample
  split
  · rfl
  · split
    · rfl
    · exact emit_activeByTid

@[simp] theorem sliceSwitchIn_activeByTid {ctx : SwitchContext} :
    (k.sliceSwitchIn ctx).activeByTid = k.activeByTid := by
  unfold Kernel.sliceSwitchIn
  split
  · rfl
  · split
    · exact emit_activeByTid
    · rfl
    · rfl

theorem Threads.Consistent.step (hf : Function.Injective traceTid) {program : Program} (h : s.Consistent traceTid)
    (hp : program.Tracked traceTid) : (s.step config program).Consistent traceTid := by
  cases program with
  | entry ctx =>
      refine ⟨h.linked.sliceEntry, fun tid ht => ?_⟩
      rcases mem_active_sliceEntry ht with rfl | ht
      · exact List.mem_cons_self
      · exact List.mem_cons_of_mem _ (h.inside tid ht)
  | ret ctx =>
      refine ⟨h.linked.sliceReturn, fun tid ht => ?_⟩
      obtain ⟨hne, ht⟩ := mem_active_sliceReturn.mp ht
      exact (List.mem_erase_of_ne hne).mpr (h.inside tid ht)
  | sample ctx => exact ⟨h.linked.sliceSample, fun tid ht => h.inside tid (sliceSample_activeByTid ▸ ht)⟩
  | schedSwitch ctx =>
      refine ⟨h.linked.sliceSchedSwitch hf hp, fun tid ht => h.inside tid ?_⟩
      rwa [Threads.step, Kernel.sliceSchedSwitch, sliceSwitchIn_activeByTid, sliceSwitchOut_activeByTid] at ht

theorem Threads.consistent_after (hf : Function.Injective traceTid) {programs : List Program}
    (hp : ∀ program ∈ programs, program.Tracked traceTid) : (Threads.after config programs).Consistent traceTid := by
  induction programs using List.reverseRecOn with
  | nil => exact ⟨.initial, fun _ h => absurd h (AList.notMem_empty _)⟩
  | append_singleton programs program ih =>
      rw [Threads.after, List.foldl_concat]
      exact (ih fun p hm => hp p (List.mem_append_left _ hm)).step hf (hp program (by simp))

/-! ## Sizes -/

/-- Each map has at most one entry for each thread inside the function. -/
theorem Threads.Consistent.sizes (h : s.Consistent traceTid) :
    s.kernel.activeByTid.size ≤ s.inside.toFinset.card ∧ s.kernel.offcpuByTid.size ≤ s.inside.toFinset.card ∧
      s.kernel.bpfTidToTraceTid.size ≤ s.inside.toFinset.card ∧
      s.kernel.traceTidToBpfTid.size ≤ s.inside.toFinset.card := by
  have hin : ∀ tid ∈ s.kernel.activeByTid, tid ∈ s.inside.toFinset :=
    fun tid ht => List.mem_toFinset.mpr (h.inside tid ht)
  have hbpf : ∀ tid ∈ s.kernel.bpfTidToTraceTid, tid ∈ s.inside.toFinset := by
    intro tid ht
    obtain ⟨trace, hl⟩ := exists_lookup_of_mem ht
    exact hin tid (h.linked.known tid trace hl).1
  have htrace : ∀ trace ∈ s.kernel.traceTidToBpfTid, trace ∈ s.inside.toFinset.image traceTid := by
    intro trace ht
    obtain ⟨tid, hl⟩ := exists_lookup_of_mem ht
    have hl := (h.linked.inverse tid trace).mpr hl
    rw [(h.linked.known tid trace hl).2]
    exact Finset.mem_image_of_mem traceTid (hbpf tid (mem_of_lookup hl))
  exact ⟨Map.size_le_card hin, Map.size_le_card fun tid ht => hin tid (h.linked.offcpu tid ht),
    Map.size_le_card hbpf, (Map.size_le_card htrace).trans Finset.card_image_le⟩

end SliceProfiler
