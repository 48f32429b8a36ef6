import SliceProfiler.Capture.Lemmas.OffCpu
import SliceProfiler.Kernel.Lemmas.Machine
import SliceProfiler.Lib.Intervals

/-!
# The off-CPU intervals

A start in `offcpu_by_tid` belongs to the active invocation of its thread and is later than every interval
recorded for it, so the intervals of an id follow one another and begin after its entry.
-/

namespace SliceProfiler

open Lib

/-- Of two off-CPU records of an id, the first ends before the second begins. -/
def Event.OffCpuBefore (e e' : Event) : Prop :=
  e.kind = 5 → e'.kind = 5 → e.invocationId = e'.invocationId → e.timestampNs + e'.weightNs ≤ e'.timestampNs

section OffCpu

variable (entered : List (Nat × Nat))

/-- The record begins after the entry of its id. -/
def Event.AfterEntry (e : Event) : Prop :=
  ∃ entryNs, (e.invocationId, entryNs) ∈ entered ∧ entryNs + e.weightNs ≤ e.timestampNs

/-- The start lies in the active invocation of its thread, after all its intervals. -/
def OffcpuStart.Pending (k : Kernel) (tid : Nat) (start : OffcpuStart) : Prop :=
  ∃ a, k.activeByTid.lookup tid = some a ∧ a.startNs ≤ start.timestampNs ∧
    ∀ e ∈ k.events, e.kind = 5 → e.invocationId = a.id → e.timestampNs ≤ start.timestampNs

/-- `entered` are the ids with their entry times, each id once. -/
structure Kernel.OffCpu (k : Kernel) : Prop where
  fresh : ∀ x ∈ entered, x.1 ≤ k.nextInvocationId
  once : (entered.map (·.1)).Nodup
  active : ∀ tid a, k.activeByTid.lookup tid = some a → (a.id, a.startNs) ∈ entered
  entries : ∀ e ∈ k.events, e.kind = 1 → (e.invocationId, e.timestampNs) ∈ entered
  after : ∀ e ∈ k.events, e.kind = 5 → e.AfterEntry entered
  ordered : k.events.Pairwise Event.OffCpuBefore
  pending : ∀ tid start, k.offcpuByTid.lookup tid = some start → start.Pending k tid

end OffCpu

variable {entered entered' : List (Nat × Nat)} {own : Nat → Nat × Nat} {horizon : Nat → Nat} {k k' : Kernel}
  {ctx : ProbeContext} {kind tid now id : Nat} {stackId : Int} {weight : Nat}

@[simp] theorem emit_offcpuByTid : (k.emit ctx kind tid now id stackId weight).offcpuByTid = k.offcpuByTid := by
  unfold Kernel.emit; split <;> rfl

@[simp] theorem sliceReturnDeletes_offcpuByTid :
    (k.sliceReturnDeletes tid).offcpuByTid = k.offcpuByTid.erase tid := by
  unfold Kernel.sliceReturnDeletes; dsimp only; split <;> rfl

theorem lookup_of_bpfMapUpdate {ν : Type} {updated : Bool} {m : Map Nat ν} {key key' : Nat} {value v : ν}
    (h : (bpfMapUpdate updated m key value).lookup key' = some v) :
    key' = key ∧ v = value ∨ m.lookup key' = some v := by
  unfold bpfMapUpdate at h
  split at h
  · exact (of_lookup_insert h).imp_right And.right
  · exact .inr h

theorem Kernel.Owned.tid_unique (h : k.Owned own horizon) {tid' : Nat} {a a' : Kernel.ActiveInvocation}
    (ha : k.activeByTid.lookup tid = some a) (ha' : k.activeByTid.lookup tid' = some a') (hid : a.id = a'.id) :
    tid = tid' := by
  have h₁ := (h.active tid a ha).own
  have h₂ := (h.active tid' a' ha').own
  rw [hid, h₂] at h₁
  exact (congrArg Prod.fst h₁).symm

namespace Kernel.OffCpu

theorem initial : ({} : Kernel).OffCpu [] :=
  ⟨nofun, List.nodup_nil, nofun, nofun, nofun, .nil, nofun⟩

/-- The records stay, the active invocations are among the old ones, and so are the starts that are left to them. -/
theorem mono (h : k.OffCpu entered) (hnext : k.nextInvocationId ≤ k'.nextInvocationId)
    (hevents : k'.events = k.events)
    (hactive : ∀ tid a, k'.activeByTid.lookup tid = some a → k.activeByTid.lookup tid = some a)
    (hpending : ∀ tid start, k'.offcpuByTid.lookup tid = some start → k.offcpuByTid.lookup tid = some start ∧
      k'.activeByTid.lookup tid = k.activeByTid.lookup tid) : k'.OffCpu entered := by
  refine ⟨fun x hx => (h.fresh x hx).trans hnext, h.once, fun t a ha => h.active t a (hactive t a ha), ?_, ?_,
    hevents ▸ h.ordered, ?_⟩
  · rw [hevents]; exact h.entries
  · rw [hevents]; exact h.after
  · intro tid start hs
    obtain ⟨hs, heq⟩ := hpending tid start hs
    rw [OffcpuStart.Pending, hevents, heq]
    exact h.pending tid start hs

/-- A record that is no interval. -/
theorem emit (h : k.OffCpu entered) (hk : kind ≠ 5) (hentry : kind = 1 → (id, now) ∈ entered) :
    (k.emit ctx kind tid now id stackId weight).OffCpu entered := by
  refine ⟨?_, h.once, ?_, ?_, ?_, ?_, ?_⟩
  · rw [emit_nextInvocationId]; exact h.fresh
  · rw [emit_activeByTid]; exact h.active
  · intro e he hek
    rcases mem_emit_events.mp he with he | ⟨-, rfl⟩
    · exact h.entries e he hek
    · exact hentry hek
  · intro e he hek
    rcases mem_emit_events.mp he with he | ⟨-, rfl⟩
    · exact h.after e he hek
    · exact absurd hek hk
  · rw [emit_events]
    split
    · refine List.pairwise_append.mpr ⟨h.ordered, List.pairwise_singleton .., fun e _ e' he' _ hek => ?_⟩
      rw [List.mem_singleton.mp he'] at hek
      exact absurd hek hk
    · rw [List.append_nil]; exact h.ordered
  · intro tid' start hs
    rw [emit_offcpuByTid] at hs
    obtain ⟨a, ha, hle, hlast⟩ := h.pending tid' start hs
    refine ⟨a, by rw [emit_activeByTid]; exact ha, hle, fun e he hek => ?_⟩
    rcases mem_emit_events.mp he with he | ⟨-, rfl⟩
    · exact hlast e he hek
    · exact absurd hek hk

/-! ## The programs -/

variable {config : SliceConfig}

/-- The next id becomes active on a thread without an active invocation, hence without a start. -/
theorem opened (h : k.OffCpu entered) (hn : k.activeByTid.lookup tid = none) (functionId : Nat) :
    ({ k with
      nextInvocationId := k.nextInvocationId + 1
      activeByTid := k.activeByTid.insert tid ⟨k.nextInvocationId + 1, now, functionId⟩ } : Kernel).OffCpu
        (entered ++ [(k.nextInvocationId + 1, now)]) := by
  have hlast := List.mem_append_right entered (List.mem_singleton_self (k.nextInvocationId + 1, now))
  refine ⟨?_, ?_, ?_, fun e he hk => List.mem_append_left _ (h.entries e he hk), ?_, h.ordered, ?_⟩
  · intro x hx
    rcases List.mem_append.mp hx with hx | hx
    · exact (h.fresh x hx).trans (Nat.le_succ _)
    · rw [List.mem_singleton.mp hx]
  · rw [List.map_append, List.map_singleton]
    refine h.once.append (List.nodup_singleton _) fun i hi hi' => ?_
    obtain ⟨x, hx, rfl⟩ := List.mem_map.mp hi
    have := h.fresh x hx
    rw [List.mem_singleton.mp hi'] at this
    omega
  · intro t a ha
    rcases of_lookup_insert ha with ⟨-, rfl⟩ | ⟨-, ha⟩
    · exact hlast
    · exact List.mem_append_left _ (h.active t a ha)
  · intro e he hk
    obtain ⟨entryNs, hin, hle⟩ := h.after e he hk
    exact ⟨entryNs, List.mem_append_left _ hin, hle⟩
  · intro t start hs
    obtain ⟨a, ha, hstart⟩ := h.pending t start hs
    have hne : t ≠ tid := by
      rintro rfl
      rw [hn] at ha
      cases ha
    exact ⟨a, (AList.lookup_insert_ne hne).trans ha, hstart⟩

theorem sliceEntry {ctx : EntryContext} (h : k.OffCpu entered) :
    (k.sliceEntry config ctx).OffCpu (entered ++
      if (k.activeByTid.lookup ctx.tid).isNone && ctx.updated then [(k.nextInvocationId + 1, ctx.now)] else []) := by
  unfold Kernel.sliceEntry
  cases ha : k.activeByTid.lookup ctx.tid with
  | some a =>
      rw [Option.isNone_some, Bool.false_and, if_neg Bool.false_ne_true, List.append_nil]
      exact h.emit (by decide) (by simp)
  | none =>
      rw [Option.isNone_none, Bool.true_and]
      dsimp only
      cases ctx.updated with
      | false =>
          rw [if_neg Bool.false_ne_true, if_neg Bool.false_ne_true, List.append_nil]
          exact h.mono (Nat.le_succ _) rfl (fun _ _ ha => ha) fun _ _ hs => ⟨hs, rfl⟩
      | true =>
          rw [if_pos rfl, if_pos rfl]
          exact (h.opened ha config.functionId).emit (by decide) fun _ =>
            List.mem_append_right _ (List.mem_singleton_self _)

/-- The return deletes the start together with the active invocation. -/
theorem sliceReturnDeletes (h : k.OffCpu entered) : (k.sliceReturnDeletes tid).OffCpu entered := by
  refine h.mono (by simp) sliceReturnDeletes_events ?_ ?_
  · intro t a ha
    rw [sliceReturnDeletes_activeByTid] at ha
    exact (of_lookup_erase ha).2
  · intro t start hs
    rw [sliceReturnDeletes_offcpuByTid] at hs
    obtain ⟨hne, hs⟩ := of_lookup_erase hs
    rw [sliceReturnDeletes_activeByTid]
    exact ⟨hs, AList.lookup_erase_ne hne⟩

theorem sliceReturn (h : k.OffCpu entered) : (k.sliceReturn ctx).OffCpu entered := by
  unfold Kernel.sliceReturn
  cases k.activeByTid.lookup ctx.tid with
  | none => exact h.emit (by decide) (by simp)
  | some a =>
      have he : (k.emit ctx 2 ctx.tid ctx.now a.id (-1) 0).OffCpu entered := h.emit (by decide) (by simp)
      exact he.sliceReturnDeletes

theorem sliceSample {ctx : SampleContext} (h : k.OffCpu entered) : (k.sliceSample config ctx).OffCpu entered := by
  unfold Kernel.sliceSample
  cases k.activeByTid.lookup ctx.tid with
  | none => exact h
  | some a =>
      dsimp only
      split
      · exact h.mono (le_refl _) rfl (fun _ _ ha => ha) fun _ _ hs => ⟨hs, rfl⟩
      · exact h.emit (by decide) (by simp)

/-- The outgoing thread starts an interval after everything recorded so far. -/
theorem sliceSwitchOut {ctx : SwitchContext} (h : k.OffCpu entered) (ho : k.Owned own horizon)
    (hpast : ∀ t, horizon t ≤ ctx.now + 1) : (k.sliceSwitchOut ctx).OffCpu entered := by
  unfold Kernel.sliceSwitchOut
  cases ha : k.activeByTid.lookup ctx.tid with
  | none => exact h
  | some a =>
      refine ⟨h.fresh, h.once, h.active, h.entries, h.after, h.ordered, fun tid start hs => ?_⟩
      rcases lookup_of_bpfMapUpdate hs with ⟨rfl, rfl⟩ | hs
      · refine ⟨a, ha, ?_, fun e he _ _ => ?_⟩
        · exact Nat.lt_succ_iff.mp ((ho.active _ a ha).past.trans_le (hpast _))
        · exact Nat.lt_succ_iff.mp ((ho.events e he).past.trans_le (hpast _))
      · exact h.pending tid start hs

/-- The interval of a start goes from the start, or from the instant of the record when that is not later. -/
theorem interval (h : k.OffCpu entered) (ho : k.Owned own horizon) (hpast : ∀ t, horizon t ≤ now + 1)
    {a : ActiveInvocation} {start : OffcpuStart} (ha : k.activeByTid.lookup tid = some a)
    (hs : k.offcpuByTid.lookup tid = some start) :
    ({ k.emit ctx 5 tid now a.id stackId (if now > start.timestampNs then now - start.timestampNs else 0) with
      offcpuByTid := k.offcpuByTid.erase tid } : Kernel).OffCpu entered := by
  obtain ⟨b, hb, hstart, hlast⟩ := h.pending tid start hs
  obtain rfl : a = b := Option.some.inj (ha.symm.trans hb)
  have hfits : ∀ x, x ≤ start.timestampNs → x < now + 1 →
      x + (if now > start.timestampNs then now - start.timestampNs else 0) ≤ now := by
    intro x hx hnow
    split <;> omega
  refine ⟨?_, h.once, ?_, ?_, ?_, ?_, ?_⟩
  · dsimp only; rw [emit_nextInvocationId]; exact h.fresh
  · rw [emit_activeByTid]; exact h.active
  · intro e he hek
    rcases mem_emit_events.mp he with he | ⟨-, rfl⟩
    · exact h.entries e he hek
    · cases hek
  · intro e he hek
    rcases mem_emit_events.mp he with he | ⟨-, rfl⟩
    · exact h.after e he hek
    · exact ⟨a.startNs, h.active tid a ha, hfits _ hstart ((ho.active tid a ha).past.trans_le (hpast _))⟩
  · rw [emit_events]
    split
    · refine List.pairwise_append.mpr ⟨h.ordered, List.pairwise_singleton .., fun e he e' he' hek _ hid => ?_⟩
      rw [List.mem_singleton.mp he'] at hid ⊢
      exact hfits _ (hlast e he hek hid) ((ho.events e he).past.trans_le (hpast _))
    · rw [List.append_nil]; exact h.ordered
  · intro tid' start' hs'
    obtain ⟨hne, hs'⟩ := of_lookup_erase hs'
    obtain ⟨a', ha', hle, hlast'⟩ := h.pending tid' start' hs'
    refine ⟨a', by rw [emit_activeByTid]; exact ha', hle, fun e he hek hid => ?_⟩
    rcases mem_emit_events.mp he with he | ⟨-, rfl⟩
    · exact hlast' e he hek hid
    · exact absurd (ho.tid_unique ha' ha hid.symm) hne

/-- The incoming thread records its interval and deletes the start. -/
theorem sliceSwitchIn {ctx : SwitchContext} (h : k.OffCpu entered) (ho : k.Owned own horizon)
    (hpast : ∀ t, horizon t ≤ ctx.now + 1) : (k.sliceSwitchIn ctx).OffCpu entered := by
  unfold Kernel.sliceSwitchIn
  split
  · exact h
  · rename_i tid _
    split
    · rename_i start a hs ha
      dsimp only
      rw [emit_offcpuByTid]
      exact h.interval ho hpast ha hs
    · exact h.mono (le_refl _) rfl (fun _ _ ha => ha) fun t start hs => ⟨(of_lookup_erase hs).2, rfl⟩
    · exact h

theorem sliceSchedSwitch {ctx : SwitchContext} (h : k.OffCpu entered) (ho : k.Owned own horizon)
    (hpast : ∀ t, horizon t ≤ ctx.now + 1) : (k.sliceSchedSwitch ctx).OffCpu entered := by
  have ho' : (k.sliceSwitchOut ctx).Owned own horizon :=
    ho.mono (fun _ _ => rfl) (by simp) (by simp) (by simp) fun _ => le_refl _
  exact (h.sliceSwitchOut ho hpast).sliceSwitchIn ho' hpast

end Kernel.OffCpu

/-! ## Runs -/

/-- What holds of a machine and the entries that led to it. -/
def Machine.Timed (entered : List (Nat × Nat)) (m : Machine) : Prop := m.Owned ∧ m.kernel.OffCpu entered

variable {config : SliceConfig} {m m' : Machine}

theorem Machine.Timed.step {a : KernelAction} (h : m.Timed entered) (hs : m.step config a = some m') :
    m'.Timed (entered ++ m.enters a) := by
  refine ⟨h.1.step hs, ?_⟩
  obtain ⟨⟨own, ho⟩, h⟩ := h
  cases Machine.steps_of_step hs with
  | entry => exact h.sliceEntry
  | unmatched =>
      simp only [Machine.enters, List.append_nil]
      exact h.sliceReturn
  | closed =>
      simp only [Machine.enters, List.append_nil]
      exact h.emit (by decide) (by simp)
  | retDeletes =>
      simp only [Machine.enters, List.append_nil]
      exact h.sliceReturnDeletes
  | sample =>
      simp only [Machine.enters, List.append_nil]
      exact h.sliceSample
  | schedSwitch hnow =>
      simp only [Machine.enters, List.append_nil]
      exact h.sliceSchedSwitch ho fun _ => Nat.succ_le_succ hnow

theorem Machine.timed_of_run {actions : List KernelAction} (h : run (Machine.step config) {} actions = some m) :
    m.Timed (Machine.entered config actions) :=
  run_trace Machine.Timed (fun _ _ _ _ hI hs => hI.step hs) ⟨⟨fun _ => (0, 0), .initial⟩, .initial⟩ h

theorem Kernel.OffCpu.entry_unique (h : k.OffCpu entered) {i entryNs entryNs' : Nat}
    (he : (i, entryNs) ∈ entered) (he' : (i, entryNs') ∈ entered) : entryNs = entryNs' :=
  congrArg Prod.snd (List.inj_on_of_nodup_map h.once he he' rfl)

/-! ## The samples of an invocation -/

section Samples

variable {request : CaptureRequest} {resolver : Resolver} {store : StackStore} {names : Map Nat String}
  {start finishNs eventsDropped samplesDropped : Nat} {release : String} {delivered : List Event} {inv : Invocation}

theorem mem_offCpuIn {e : Event} {events : List Event} (h : e ∈ events.filter (Event.offCpuIn inv)) :
    e ∈ events ∧ e.kind = 5 ∧ e.invocationId = inv.id ∧ inv.startNs ≤ e.timestampNs ∧ e.timestampNs ≤ inv.endNs := by
  simpa [Event.offCpuIn] using h

theorem Machine.Timed.offCpu_sum_le (h : m.Timed entered) (hd : delivered.Perm m.kernel.events)
    (hinv : inv ∈ (capture request resolver store names start release eventsDropped samplesDropped delivered
      finishNs).invocations) (hv : inv.valid = true) :
    inv.startNs + (((capture request resolver store names start release eventsDropped samplesDropped delivered
      finishNs).offCpuSamples inv.id).map (·.weightNs)).sum ≤ inv.endNs := by
  obtain ⟨⟨own, ho⟩, h⟩ := h
  obtain ⟨e, r, hs⟩ := spans_of_valid hinv hv
  have hentry : (inv.id, inv.startNs) ∈ entered := by
    rw [← hs.entry.2.2, hs.startNs]
    exact h.entries e (hd.mem_iff.mp hs.entry.1) hs.entry.2.1
  have hbounds : inv.startNs ≤ inv.endNs := by
    have he := (ho.events e (hd.mem_iff.mp hs.entry.1)).entry hs.entry.2.1
    have hr := (ho.events r (hd.mem_iff.mp hs.ret.1)).ret hs.ret.2.1
    rwa [hs.ret.2.2, ← hs.entry.2.2, he, ← hs.startNs, ← hs.endNs] at hr
  have hsucc : Successive Event.weightNs Event.timestampNs (m.kernel.events.filter (Event.offCpuIn inv)) := by
    refine (h.ordered.filter _).imp_of_mem fun ha hb hab => ?_
    obtain ⟨-, hka, hia, -⟩ := mem_offCpuIn ha
    obtain ⟨-, hkb, hib, -⟩ := mem_offCpuIn hb
    exact hab hka hkb (hia.trans hib.symm)
  rw [((offCpuWeights_capture hinv hv).trans ((hd.filter _).map _)).sum_eq]
  refine hsucc.sum_le hbounds fun x hx => ?_
  obtain ⟨hx, hk, hid, -, hend⟩ := mem_offCpuIn hx
  obtain ⟨entryNs, hin, hle⟩ := h.after x hx hk
  rw [hid] at hin
  rw [h.entry_unique hentry hin]
  exact ⟨hle, hend⟩

end Samples

end SliceProfiler
