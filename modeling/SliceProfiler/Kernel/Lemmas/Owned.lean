import SliceProfiler.Kernel.Slice
import SliceProfiler.Lib.Runs

/-!
# The owners of the invocation ids

Each id belongs to one thread, from the instant at which it became active there.
-/

namespace SliceProfiler

open Lib

/-! ## The effect of an emit -/

section Emit

variable {k : Kernel} {ctx : ProbeContext} {kind tid now id : Nat} {stackId : Int} {weight : Nat}

@[simp] theorem emit_nextInvocationId :
    (k.emit ctx kind tid now id stackId weight).nextInvocationId = k.nextInvocationId := by
  unfold Kernel.emit; split <;> rfl

@[simp] theorem emit_activeByTid :
    (k.emit ctx kind tid now id stackId weight).activeByTid = k.activeByTid := by
  unfold Kernel.emit; split <;> rfl

theorem emit_events : (k.emit ctx kind tid now id stackId weight).events =
    k.events ++ if ctx.reserved then [⟨kind, tid, now, id, stackId, ctx.cpu, weight⟩] else [] := by
  unfold Kernel.emit; split <;> simp [*]

theorem mem_emit_events {e : Event} : e ∈ (k.emit ctx kind tid now id stackId weight).events ↔
    e ∈ k.events ∨ ctx.reserved = true ∧ e = ⟨kind, tid, now, id, stackId, ctx.cpu, weight⟩ := by
  rw [emit_events]
  cases ctx.reserved <;> simp

@[simp] theorem sliceReturnDeletes_nextInvocationId :
    (k.sliceReturnDeletes tid).nextInvocationId = k.nextInvocationId := by
  unfold Kernel.sliceReturnDeletes; dsimp only; split <;> rfl

@[simp] theorem sliceReturnDeletes_events : (k.sliceReturnDeletes tid).events = k.events := by
  unfold Kernel.sliceReturnDeletes; dsimp only; split <;> rfl

@[simp] theorem sliceReturnDeletes_activeByTid :
    (k.sliceReturnDeletes tid).activeByTid = k.activeByTid.erase tid := by
  unfold Kernel.sliceReturnDeletes; dsimp only; split <;> rfl

@[simp] theorem sliceSwitchOut_nextInvocationId {c : SwitchContext} :
    (k.sliceSwitchOut c).nextInvocationId = k.nextInvocationId := by
  unfold Kernel.sliceSwitchOut; split <;> rfl

@[simp] theorem sliceSwitchOut_activeByTid {c : SwitchContext} :
    (k.sliceSwitchOut c).activeByTid = k.activeByTid := by
  unfold Kernel.sliceSwitchOut; split <;> rfl

@[simp] theorem sliceSwitchOut_events {c : SwitchContext} : (k.sliceSwitchOut c).events = k.events := by
  unfold Kernel.sliceSwitchOut; split <;> rfl

end Emit

/-! ## The invariant -/

section Owned

variable (own : Nat → Nat × Nat) (horizon : Nat → Nat)

/-- The record agrees with the owner of its id and is before the horizon of its thread. -/
structure Event.Owned (next : Nat) (e : Event) : Prop where
  past : e.timestampNs < horizon e.tid
  fresh : e.kind ≠ 4 → e.invocationId ≤ next
  tid : e.kind ≠ 4 → (own e.invocationId).1 = e.tid
  entry : e.kind = 1 → (own e.invocationId).2 = e.timestampNs
  ret : e.kind = 2 → (own e.invocationId).2 ≤ e.timestampNs

structure Kernel.ActiveInvocation.Owned (next tid : Nat) (a : Kernel.ActiveInvocation) : Prop where
  past : a.startNs < horizon tid
  fresh : a.id ≤ next
  own : own a.id = (tid, a.startNs)

/-- `own i` are the thread and the start of the id `i`. The ids of a thread follow one another: a return is
not later than the entries of larger ids, and no entry has a larger id than the active invocation. -/
structure Kernel.Owned (k : Kernel) : Prop where
  events : ∀ e ∈ k.events, e.Owned own horizon k.nextInvocationId
  active : ∀ tid a, k.activeByTid.lookup tid = some a → a.Owned own horizon k.nextInvocationId tid
  newest : ∀ tid a, k.activeByTid.lookup tid = some a → ∀ e ∈ k.events, e.kind = 1 → e.tid = tid →
    e.invocationId ≤ a.id
  ordered : ∀ r ∈ k.events, r.kind = 2 → ∀ e ∈ k.events, e.kind = 1 → e.tid = r.tid →
    r.invocationId < e.invocationId → r.timestampNs ≤ e.timestampNs

end Owned

variable {own own' : Nat → Nat × Nat} {horizon horizon' : Nat → Nat} {k k' : Kernel} {tid now : Nat}

theorem Event.Owned.mono {next next' : Nat} {e : Event} (h : e.Owned own horizon next)
    (hown : ∀ i ≤ next, own' i = own i) (hnext : next ≤ next') (hle : ∀ t, horizon t ≤ horizon' t) :
    e.Owned own' horizon' next' := by
  refine ⟨h.past.trans_le (hle _), fun hk => (h.fresh hk).trans hnext, fun hk => ?_, fun hk => ?_, fun hk => ?_⟩
  · rw [hown _ (h.fresh hk)]; exact h.tid hk
  · rw [hown _ (h.fresh (by omega))]; exact h.entry hk
  · rw [hown _ (h.fresh (by omega))]; exact h.ret hk

theorem Kernel.ActiveInvocation.Owned.mono {next next' : Nat} {a : Kernel.ActiveInvocation}
    (h : a.Owned own horizon next tid) (hown : ∀ i ≤ next, own' i = own i) (hnext : next ≤ next')
    (hle : ∀ t, horizon t ≤ horizon' t) : a.Owned own' horizon' next' tid :=
  ⟨h.past.trans_le (hle tid), h.fresh.trans hnext, (hown _ h.fresh).trans h.own⟩

namespace Kernel.Owned

theorem initial : ({} : Kernel).Owned own horizon := by
  constructor <;> intros <;> contradiction

/-- The records stay, and the active invocations are among the old ones. -/
theorem mono (h : k.Owned own horizon) (hown : ∀ i ≤ k.nextInvocationId, own' i = own i)
    (hnext : k.nextInvocationId ≤ k'.nextInvocationId) (hevents : k'.events = k.events)
    (hactive : ∀ tid a, k'.activeByTid.lookup tid = some a → k.activeByTid.lookup tid = some a)
    (hle : ∀ t, horizon t ≤ horizon' t) : k'.Owned own' horizon' := by
  refine ⟨?_, fun tid a ha => (h.active tid a (hactive tid a ha)).mono hown hnext hle, ?_, ?_⟩
  · intro e he
    rw [hevents] at he
    exact (h.events e he).mono hown hnext hle
  · intro tid a ha
    rw [hevents]
    exact h.newest tid a (hactive tid a ha)
  · rw [hevents]; exact h.ordered

/-- A record that has its owner, and keeps the order of the ids of its thread. -/
theorem emit {ctx : ProbeContext} {kind id : Nat} {stackId : Int} {weight : Nat} (h : k.Owned own horizon)
    (hnew : Event.Owned own horizon k.nextInvocationId ⟨kind, tid, now, id, stackId, ctx.cpu, weight⟩)
    (hnewest : kind = 1 → ∀ a, k.activeByTid.lookup tid = some a → id ≤ a.id)
    (hafter : kind = 1 → ∀ r ∈ k.events, r.tid = tid → r.timestampNs ≤ now)
    (hbefore : kind = 2 → ∀ e ∈ k.events, e.kind = 1 → e.tid = tid → e.invocationId ≤ id) :
    (k.emit ctx kind tid now id stackId weight).Owned own horizon := by
  refine ⟨?_, ?_, ?_, ?_⟩
  · intro e he
    rw [emit_nextInvocationId]
    rcases mem_emit_events.mp he with he | ⟨-, rfl⟩
    · exact h.events e he
    · exact hnew
  · intro tid' a ha
    rw [emit_activeByTid] at ha
    rw [emit_nextInvocationId]
    exact h.active tid' a ha
  · intro tid' a ha e he hk ht
    rw [emit_activeByTid] at ha
    rcases mem_emit_events.mp he with he | ⟨-, rfl⟩
    · exact h.newest tid' a ha e he hk ht
    · subst ht
      exact hnewest hk a ha
  · intro r hr hrk e he hek ht hlt
    rcases mem_emit_events.mp hr with hr | ⟨-, rfl⟩
    · rcases mem_emit_events.mp he with he | ⟨-, rfl⟩
      · exact h.ordered r hr hrk e he hek ht hlt
      · exact hafter hek r hr ht.symm
    · rcases mem_emit_events.mp he with he | ⟨-, rfl⟩
      · exact absurd (hbefore hrk e he hek ht) hlt.not_ge
      · exact absurd hlt (lt_irrefl _)

/-- A record of a violation has no owner. -/
theorem emitViolation {ctx : ProbeContext} (h : k.Owned own horizon) (hle : ∀ t, horizon t ≤ horizon' t)
    (hnow : now < horizon' tid) : (k.emit ctx 4 tid now 0 (-1) 0).Owned own horizon' := by
  have h' : k.Owned own horizon' := h.mono (fun _ _ => rfl) (le_refl _) rfl (fun _ _ ha => ha) hle
  exact h'.emit ⟨hnow, by simp, by simp, by simp, by simp⟩ (by simp) (by simp) (by simp)

/-- A record of the active invocation of its thread. -/
theorem emitActive {ctx : ProbeContext} {a : ActiveInvocation} {kind : Nat} {stackId : Int} {weight : Nat}
    (h : k.Owned own horizon) (ha : k.activeByTid.lookup tid = some a)
    (hstart : kind = 1 → a.startNs = now) (hle : ∀ t, horizon t ≤ horizon' t) (hpast : horizon tid ≤ now + 1)
    (hnow : now < horizon' tid) : (k.emit ctx kind tid now a.id stackId weight).Owned own horizon' := by
  have h' : k.Owned own horizon' := h.mono (fun _ _ => rfl) (le_refl _) rfl (fun _ _ ha => ha) hle
  have hao := h.active tid a ha
  refine h'.emit ?_ (fun _ b hb => ?_) (fun _ r hr ht => ?_) fun _ => h'.newest tid a ha
  · refine ⟨hnow, fun _ => hao.fresh, fun _ => ?_, fun hk => ?_, fun _ => ?_⟩
    · rw [hao.own]
    · rw [hao.own]; exact hstart hk
    · have := hao.past
      rw [hao.own]; dsimp only; omega
  · rw [ha] at hb
    cases hb; exact le_refl _
  · have := (h.events r hr).past
    rw [ht] at this
    omega

/-- The next id becomes active. -/
theorem opened (h : k.Owned own horizon) (functionId : Nat) (hle : ∀ t, horizon t ≤ horizon' t)
    (hnow : now < horizon' tid) :
    ({ k with
      nextInvocationId := k.nextInvocationId + 1
      activeByTid := k.activeByTid.insert tid ⟨k.nextInvocationId + 1, now, functionId⟩ } : Kernel).Owned
        (Function.update own (k.nextInvocationId + 1) (tid, now)) horizon' := by
  have hown : ∀ i ≤ k.nextInvocationId, Function.update own (k.nextInvocationId + 1) (tid, now) i = own i :=
    fun i hi => Function.update_of_ne (by omega) _ _
  refine ⟨fun e he => (h.events e he).mono hown (Nat.le_succ _) hle, ?_, ?_, h.ordered⟩
  · intro t a ha
    rcases of_lookup_insert ha with ⟨rfl, rfl⟩ | ⟨-, ha⟩
    · exact ⟨hnow, le_refl _, Function.update_self ..⟩
    · exact (h.active t a ha).mono hown (Nat.le_succ _) hle
  · intro t a ha e he hk ht
    rcases of_lookup_insert ha with ⟨-, rfl⟩ | ⟨-, ha⟩
    · exact ((h.events e he).fresh (by omega)).trans (Nat.le_succ _)
    · exact h.newest t a ha e he hk ht

end Kernel.Owned

/-! ## The programs -/

namespace Kernel.Owned

variable {config : SliceConfig}

/-- An entry may give the next id to its thread. -/
theorem sliceEntry {ctx : EntryContext} (h : k.Owned own horizon) (hle : ∀ t, horizon t ≤ horizon' t)
    (hpast : horizon' ctx.tid = ctx.now + 1) : (k.sliceEntry config ctx).Owned
      (Function.update own (k.nextInvocationId + 1) (ctx.tid, ctx.now)) horizon' := by
  have hown : ∀ i ≤ k.nextInvocationId,
      Function.update own (k.nextInvocationId + 1) (ctx.tid, ctx.now) i = own i :=
    fun i hi => Function.update_of_ne (by omega) _ _
  unfold Kernel.sliceEntry
  cases ha : k.activeByTid.lookup ctx.tid with
  | some a =>
      have h' : k.Owned (Function.update own (k.nextInvocationId + 1) (ctx.tid, ctx.now)) horizon :=
        h.mono hown (le_refl _) rfl (fun _ _ ha => ha) fun _ => le_refl _
      exact h'.emitViolation hle (by omega)
  | none =>
      dsimp only
      split
      · have h' := h.opened config.functionId hle (show ctx.now < horizon' ctx.tid by omega)
        exact h'.emitActive (AList.lookup_insert _) (fun _ => rfl) (fun _ => le_refl _) (by omega) (by omega)
      · exact h.mono hown (Nat.le_succ _) rfl (fun _ _ ha => ha) hle

theorem sliceReturnDeletes (h : k.Owned own horizon) : (k.sliceReturnDeletes tid).Owned own horizon := by
  refine h.mono (fun _ _ => rfl) (by simp) (by simp) (fun t a ha => ?_) fun _ => le_refl _
  rw [sliceReturnDeletes_activeByTid] at ha
  exact (of_lookup_erase ha).2

theorem sliceReturn {ctx : ProbeContext} (h : k.Owned own horizon) (hle : ∀ t, horizon t ≤ horizon' t)
    (hpast : horizon ctx.tid ≤ ctx.now + 1) (hnow : ctx.now < horizon' ctx.tid) :
    (k.sliceReturn ctx).Owned own horizon' := by
  unfold Kernel.sliceReturn
  cases ha : k.activeByTid.lookup ctx.tid with
  | none => exact h.emitViolation hle hnow
  | some a => exact (h.emitActive ha (by simp) hle hpast hnow).sliceReturnDeletes

theorem sliceSample {ctx : SampleContext} (h : k.Owned own horizon) (hle : ∀ t, horizon t ≤ horizon' t)
    (hpast : horizon ctx.tid ≤ ctx.now + 1) (hnow : ctx.now < horizon' ctx.tid) :
    (k.sliceSample config ctx).Owned own horizon' := by
  unfold Kernel.sliceSample
  cases ha : k.activeByTid.lookup ctx.tid with
  | none => exact h.mono (fun _ _ => rfl) (le_refl _) rfl (fun _ _ ha => ha) hle
  | some a =>
      dsimp only
      split
      · exact h.mono (fun _ _ => rfl) (le_refl _) rfl (fun _ _ ha => ha) hle
      · exact h.emitActive ha (by simp) hle hpast hnow

/-- The record of a switch belongs to the incoming thread. -/
theorem sliceSwitchIn {ctx : SwitchContext} (h : k.Owned own horizon) (hle : ∀ t, horizon t ≤ horizon' t)
    (hpast : ∀ t, horizon t ≤ ctx.now + 1) (hnow : ∀ t, ctx.now < horizon' t) :
    (k.sliceSwitchIn ctx).Owned own horizon' := by
  have h' : k.Owned own horizon' := h.mono (fun _ _ => rfl) (le_refl _) rfl (fun _ _ ha => ha) hle
  unfold Kernel.sliceSwitchIn
  split
  · exact h'
  · rename_i tid _
    split
    · rename_i start a _ ha
      have he : (k.emit ctx.toProbeContext 5 tid ctx.now a.id start.stackId
          (if ctx.now > start.timestampNs then ctx.now - start.timestampNs else 0)).Owned own horizon' :=
        h.emitActive ha (by simp) hle (hpast _) (hnow _)
      exact he.mono (fun _ _ => rfl) (le_refl _) rfl (fun _ _ ha => ha) fun _ => le_refl _
    · exact h'.mono (fun _ _ => rfl) (le_refl _) rfl (fun _ _ ha => ha) fun _ => le_refl _
    · exact h'

theorem sliceSchedSwitch {ctx : SwitchContext} (h : k.Owned own horizon) (hle : ∀ t, horizon t ≤ horizon' t)
    (hpast : ∀ t, horizon t ≤ ctx.now + 1) (hnow : ∀ t, ctx.now < horizon' t) :
    (k.sliceSchedSwitch ctx).Owned own horizon' := by
  have h' : (k.sliceSwitchOut ctx).Owned own horizon :=
    h.mono (fun _ _ => rfl) (by simp) (by simp) (by simp) fun _ => le_refl _
  exact h'.sliceSwitchIn hle hpast hnow

end Kernel.Owned

end SliceProfiler
