import SliceProfiler.Kernel.Calls
import SliceProfiler.Kernel.Lemmas.Owned

/-!
# Calls and the kernel side

What a step adds to the records and to the active invocations, and how the calls so far relate to them.
-/

namespace SliceProfiler

open Lib

variable {config : SliceConfig} {w w' : World} {p : Probe}

/-! ## One step -/

/-- The record that a step emits. -/
inductive World.NewRecord (w : World) : Probe → Event → Prop where
  | nested {ctx : EntryContext} {a : Kernel.ActiveInvocation}
      (ha : w.kernel.activeByTid.lookup ctx.tid = some a) :
      NewRecord w (.call ctx) ⟨4, ctx.tid, ctx.now, 0, -1, ctx.cpu, 0⟩
  | opened {ctx : EntryContext} (ha : w.kernel.activeByTid.lookup ctx.tid = none) (hu : ctx.updated = true) :
      NewRecord w (.call ctx) ⟨1, ctx.tid, ctx.now, w.kernel.nextInvocationId + 1, -1, ctx.cpu, 0⟩
  | unmatched {ctx : ProbeContext} (ha : w.kernel.activeByTid.lookup ctx.tid = none) :
      NewRecord w (.ret ctx) ⟨4, ctx.tid, ctx.now, 0, -1, ctx.cpu, 0⟩
  | closed {ctx : ProbeContext} {a : Kernel.ActiveInvocation}
      (ha : w.kernel.activeByTid.lookup ctx.tid = some a) :
      NewRecord w (.ret ctx) ⟨2, ctx.tid, ctx.now, a.id, -1, ctx.cpu, 0⟩

theorem World.NewRecord.tid {e : Event} (h : w.NewRecord p e) : e.tid = p.context.tid := by cases h <;> rfl

theorem World.NewRecord.timestampNs {e : Event} (h : w.NewRecord p e) : e.timestampNs = p.context.now := by
  cases h <;> rfl

theorem World.NewRecord.unique {e e' : Event} (h : w.NewRecord p e) (h' : w.NewRecord p e') : e = e' := by
  cases h <;> cases h' <;> simp_all

/-- A step appends its record when the ring buffer has room. The entry whose map update fails has none. -/
theorem World.Steps.events (h : w.Steps config p w') :
    (w'.kernel.events = w.kernel.events ∧ ((p.context.reserved = true → ∀ e, ¬ w.NewRecord p e))) ∨
      p.context.reserved = true ∧ ∃ e, w.NewRecord p e ∧ w'.kernel.events = w.kernel.events ++ [e] := by
  cases h with
  | @call ctx hnow =>
      simp only [World.enter, Probe.context, Kernel.sliceEntry]
      cases ha : w.kernel.activeByTid.lookup ctx.tid with
      | some a =>
          cases hr : ctx.reserved with
          | true => exact .inr ⟨rfl, _, .nested ha, by simp [emit_events, hr]⟩
          | false => exact .inl ⟨by simp [emit_events, hr], by simp⟩
      | none =>
          cases hu : ctx.updated with
          | true =>
              cases hr : ctx.reserved with
              | true => exact .inr ⟨rfl, _, .opened ha hu, by simp [emit_events, hr]⟩
              | false => exact .inl ⟨by simp [emit_events, hr], by simp⟩
          | false =>
              refine .inl ⟨by simp, fun _ e he => ?_⟩
              cases he <;> simp_all
  | @ret ctx c rest hnow hstack =>
      simp only [World.leave, Probe.context, Kernel.sliceReturn]
      cases ha : w.kernel.activeByTid.lookup ctx.tid with
      | none =>
          cases hr : ctx.reserved with
          | true => exact .inr ⟨rfl, _, .unmatched ha, by simp [emit_events, hr]⟩
          | false => exact .inl ⟨by simp [emit_events, hr], by simp⟩
      | some a =>
          cases hr : ctx.reserved with
          | true => exact .inr ⟨rfl, _, .closed ha, by simp [emit_events, hr]⟩
          | false => exact .inl ⟨by simp [emit_events, hr], by simp⟩

theorem World.Steps.mem_events (h : w.Steps config p w') {e : Event} : e ∈ w'.kernel.events ↔
    e ∈ w.kernel.events ∨ p.context.reserved = true ∧ w.NewRecord p e := by
  rcases h.events with ⟨he, hn⟩ | ⟨hr, x, hx, he⟩
  · rw [he]
    exact ⟨.inl, fun h => h.elim id fun h => absurd h.2 (hn h.1 e)⟩
  · rw [he, List.mem_append, List.mem_singleton]
    constructor
    · rintro (h | rfl)
      · exact .inl h
      · exact .inr ⟨hr, hx⟩
    · rintro (h | ⟨-, h⟩)
      · exact .inl h
      · exact .inr (h.unique hx)

theorem lookup_enter {ctx : EntryContext} {tid : Nat} :
    (w.enter config ctx).kernel.activeByTid.lookup tid =
      if tid = ctx.tid ∧ w.kernel.activeByTid.lookup ctx.tid = none ∧ ctx.updated = true then
        some ⟨w.kernel.nextInvocationId + 1, ctx.now, config.functionId⟩
      else w.kernel.activeByTid.lookup tid := by
  simp only [World.enter, Kernel.sliceEntry]
  cases ha : w.kernel.activeByTid.lookup ctx.tid with
  | some a => simp
  | none =>
      cases hu : ctx.updated with
      | true => simp [lookup_insert_if]
      | false => simp

theorem lookup_leave {ctx : ProbeContext} {c : Call} {rest : List Call} {tid : Nat} :
    (w.leave c rest ctx).kernel.activeByTid.lookup tid =
      if tid = ctx.tid then none else w.kernel.activeByTid.lookup tid := by
  simp only [World.leave, Kernel.sliceReturn]
  cases ha : w.kernel.activeByTid.lookup ctx.tid with
  | some a => simp [lookup_erase_if]
  | none =>
      by_cases ht : tid = ctx.tid
      · subst ht; simp [ha]
      · simp [ht]

theorem nextInvocationId_enter {ctx : EntryContext} : (w.enter config ctx).kernel.nextInvocationId =
    if w.kernel.activeByTid.lookup ctx.tid = none then w.kernel.nextInvocationId + 1
    else w.kernel.nextInvocationId := by
  simp only [World.enter, Kernel.sliceEntry]
  cases ha : w.kernel.activeByTid.lookup ctx.tid with
  | some a => simp
  | none => cases hu : ctx.updated <;> simp

theorem nextInvocationId_leave {ctx : ProbeContext} {c : Call} {rest : List Call} :
    (w.leave c rest ctx).kernel.nextInvocationId = w.kernel.nextInvocationId := by
  simp only [World.leave, Kernel.sliceReturn]
  cases ha : w.kernel.activeByTid.lookup ctx.tid <;> simp

theorem callOf_id {ctx : EntryContext} {i : Nat} : (w.callOf ctx).id = some i ↔
    w.kernel.activeByTid.lookup ctx.tid = none ∧ ctx.updated = true ∧ i = w.kernel.nextInvocationId + 1 := by
  simp only [World.callOf, Option.ite_none_right_eq_some, Bool.and_eq_true, Option.isNone_iff_eq_none,
    Option.some.injEq, and_assoc]
  exact ⟨fun ⟨h₁, h₂, h₃⟩ => ⟨h₁, h₂, h₃.symm⟩, fun ⟨h₁, h₂, h₃⟩ => ⟨h₁, h₂, h₃.symm⟩⟩

/-! ## The calls so far -/

/-- The calls agree with the owners of the ids; an active invocation stands for an open call. -/
structure World.Tracked (own : Nat → Nat × Nat) (w : World) : Prop where
  owned : w.kernel.Owned own w.clock
  ids : ∀ c ∈ w.entered, ∀ i, c.id = some i → i ≤ w.kernel.nextInvocationId ∧ own i = (c.tid, c.enterNs)
  past : ∀ c ∈ w.entered, c.enterNs < w.clock c.tid
  stackMem : ∀ tid, ∀ c ∈ w.callStack tid, c ∈ w.entered ∧ c.tid = tid
  stackSorted : ∀ tid, (w.callStack tid).Pairwise fun c d => d.enterNs < c.enterNs
  returnedPast : ∀ x ∈ w.returned, x.1 ∈ w.entered ∧ x.2 < w.clock x.1.tid
  activeCall : ∀ tid a, w.kernel.activeByTid.lookup tid = some a → ∃ c ∈ w.callStack tid, c.id = some a.id

theorem clock_le {tid now : Nat} (h : w.clock tid ≤ now) (t : Nat) :
    w.clock t ≤ Function.update w.clock tid (now + 1) t := by
  by_cases ht : t = tid
  · subst ht; rw [Function.update_self]; omega
  · rw [Function.update_of_ne ht]

namespace World.Tracked

variable {own : Nat → Nat × Nat}

/-- The calls, the returns and the records of a thread are before its clock. -/
theorem entered_lt {c : Call} {tid now : Nat} (h : w.Tracked own) (hc : c ∈ w.entered) (ht : c.tid = tid)
    (hnow : w.clock tid ≤ now) : c.enterNs < now := by
  subst ht
  exact (h.past c hc).trans_le hnow

theorem returned_lt {c : Call} {r tid now : Nat} (h : w.Tracked own) (hc : (c, r) ∈ w.returned) (ht : c.tid = tid)
    (hnow : w.clock tid ≤ now) : r < now := by
  subst ht
  exact (h.returnedPast _ hc).2.trans_le hnow

theorem event_lt {e : Event} {tid now : Nat} (h : w.Tracked own) (he : e ∈ w.kernel.events) (ht : e.tid = tid)
    (hnow : w.clock tid ≤ now) : e.timestampNs < now := by
  subst ht
  exact (h.owned.events e he).past.trans_le hnow

/-- The innermost open call of a thread started inside the others. -/
theorem top_mem {tid : Nat} {c : Call} {rest : List Call} (h : w.Tracked own) (hstack : w.callStack tid = c :: rest) :
    c ∈ w.entered ∧ c.tid = tid :=
  h.stackMem tid c (hstack ▸ List.mem_cons_self)

theorem below_top {tid : Nat} {c d : Call} {rest : List Call} (h : w.Tracked own)
    (hstack : w.callStack tid = c :: rest) (hd : d ∈ rest) : d.enterNs < c.enterNs := by
  have hsorted := h.stackSorted tid
  rw [hstack, List.pairwise_cons] at hsorted
  exact hsorted.1 d hd

theorem initial : ({} : World).Tracked own := by
  constructor <;> intros <;> first | contradiction | exact .initial | exact .nil

theorem enter {ctx : EntryContext} (h : w.Tracked own) (hnow : w.clock ctx.tid ≤ ctx.now) :
    (w.enter config ctx).Tracked
      (Function.update own (w.kernel.nextInvocationId + 1) (ctx.tid, ctx.now)) := by
  have hclock : (w.enter config ctx).clock = Function.update w.clock ctx.tid (ctx.now + 1) := rfl
  have hle := clock_le hnow
  refine ⟨?_, ?_, ?_, ?_, ?_, ?_, ?_⟩
  · exact h.owned.sliceEntry hle (Function.update_self ..)
  · intro c hc i hi
    rcases List.mem_cons.mp hc with rfl | hc
    · obtain ⟨hn, -, rfl⟩ := callOf_id.mp hi
      rw [nextInvocationId_enter, if_pos hn, Function.update_self]
      exact ⟨le_refl _, rfl⟩
    · obtain ⟨hle, ho⟩ := h.ids c hc i hi
      rw [Function.update_of_ne (by omega), nextInvocationId_enter]
      exact ⟨by split <;> omega, ho⟩
  · intro c hc
    rw [hclock]
    rcases List.mem_cons.mp hc with rfl | hc
    · simp [World.callOf]
    · exact (h.past c hc).trans_le (hle _)
  · intro t c hc
    by_cases ht : t = ctx.tid
    · subst ht
      simp only [World.enter, Function.update_self, List.mem_cons] at hc ⊢
      rcases hc with rfl | hc
      · exact ⟨.inl rfl, rfl⟩
      · exact ⟨.inr (h.stackMem _ c hc).1, (h.stackMem _ c hc).2⟩
    · simp only [World.enter, Function.update_of_ne ht] at hc
      exact ⟨List.mem_cons_of_mem _ (h.stackMem t c hc).1, (h.stackMem t c hc).2⟩
  · intro t
    by_cases ht : t = ctx.tid
    · subst ht
      simp only [World.enter, Function.update_self, List.pairwise_cons]
      refine ⟨fun d hd => ?_, h.stackSorted _⟩
      obtain ⟨hd, hdt⟩ := h.stackMem _ d hd
      exact h.entered_lt hd hdt hnow
    · simp only [World.enter, Function.update_of_ne ht]
      exact h.stackSorted t
  · intro x hx
    have := h.returnedPast x hx
    exact ⟨List.mem_cons_of_mem _ this.1, this.2.trans_le (hle _)⟩
  · intro t a ha
    rw [lookup_enter] at ha
    split at ha
    · rename_i hc
      obtain ⟨rfl, hn, hu⟩ := hc
      cases ha
      exact ⟨w.callOf ctx, by simp [World.enter], callOf_id.mpr ⟨hn, hu, rfl⟩⟩
    · obtain ⟨c, hc, hi⟩ := h.activeCall t a ha
      refine ⟨c, ?_, hi⟩
      by_cases ht : t = ctx.tid
      · subst ht; simp [World.enter, hc]
      · simpa [World.enter, Function.update_of_ne ht] using hc

theorem leave {ctx : ProbeContext} {c : Call} {rest : List Call} (h : w.Tracked own)
    (hnow : w.clock ctx.tid ≤ ctx.now) (hstack : w.callStack ctx.tid = c :: rest) :
    (w.leave c rest ctx).Tracked own := by
  have hclock : (w.leave c rest ctx).clock = Function.update w.clock ctx.tid (ctx.now + 1) := rfl
  have hle := clock_le hnow
  refine ⟨?_, ?_, ?_, ?_, ?_, ?_, ?_⟩
  · exact h.owned.sliceReturn hle (by omega) (by rw [hclock, Function.update_self]; omega)
  · intro d hd i hi
    rw [nextInvocationId_leave]
    exact h.ids d hd i hi
  · exact fun d hd => (h.past d hd).trans_le (hle _)
  · intro t d hd
    by_cases ht : t = ctx.tid
    · subst ht
      simp only [World.leave, Function.update_self] at hd
      exact h.stackMem _ d (by rw [hstack]; exact List.mem_cons_of_mem _ hd)
    · simp only [World.leave, Function.update_of_ne ht] at hd
      exact h.stackMem t d hd
  · intro t
    by_cases ht : t = ctx.tid
    · subst ht
      have hs := h.stackSorted ctx.tid
      rw [hstack, List.pairwise_cons] at hs
      simpa [World.leave] using hs.2
    · simpa [World.leave, Function.update_of_ne ht] using h.stackSorted t
  · intro x hx
    rcases List.mem_cons.mp hx with rfl | hx
    · obtain ⟨hc, hct⟩ := h.top_mem hstack
      refine ⟨hc, ?_⟩
      rw [hclock, hct, Function.update_self]
      exact Nat.lt_succ_self _
    · have := h.returnedPast x hx
      exact ⟨this.1, this.2.trans_le (hle _)⟩
  · intro t a ha
    rw [lookup_leave] at ha
    split at ha
    · cases ha
    · rename_i ht
      simpa [World.leave, Function.update_of_ne ht] using h.activeCall t a ha

theorem step (h : w.Tracked own) (hs : w.Steps config p w') : ∃ own', w'.Tracked own' := by
  cases hs with
  | call hnow => exact ⟨_, h.enter hnow⟩
  | ret hnow hstack => exact ⟨own, h.leave hnow hstack⟩

end World.Tracked

end SliceProfiler
