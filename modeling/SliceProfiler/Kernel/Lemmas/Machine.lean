import SliceProfiler.Capture.Lemmas.Events
import SliceProfiler.Kernel.Lemmas.Owned

/-!
# Captures of the kernel programs
-/

namespace SliceProfiler

open Lib

variable {request : CaptureRequest} {resolver : Resolver} {store : StackStore} {own : Nat → Nat × Nat}
  {horizon : Nat → Nat} {k : Kernel} {delivered : List Event}

/-! ## What the owners say of the delivered records -/

theorem orderedBoundaries_of_owned (h : k.Owned own horizon) (hd : delivered.Perm k.events) :
    OrderedBoundaries (translateAll request resolver store delivered) := by
  intro i b r hb hr
  obtain ⟨e, he, hek, heid, rfl⟩ := mem_entriesOf.mp (List.mem_of_mem_head? hb)
  obtain ⟨x, hx, hxk, hxid, rfl⟩ := mem_returnsOf.mp (List.mem_of_mem_getLast? hr)
  have hstart := (h.events e (hd.mem_iff.mp he)).entry hek
  have hend := (h.events x (hd.mem_iff.mp hx)).ret hxk
  rw [heid] at hstart
  rw [hxid, hstart] at hend
  exact hend

theorem samplesOnThread_of_owned (h : k.Owned own horizon) (hd : delivered.Perm k.events) :
    SamplesOnThread (translateAll request resolver store delivered) := by
  intro i b r hret s hs _ _
  have hb : b ∈ entriesOf i (translateAll request resolver store delivered) := by
    rw [hret.entry]; exact List.mem_singleton_self b
  obtain ⟨e, he, hek, heid, rfl⟩ := mem_entriesOf.mp hb
  obtain ⟨x, hx, hxk, hxid, hst, -⟩ := of_mem_samplesOf hs
  have hentry := (h.events e (hd.mem_iff.mp he)).tid (by omega)
  have hsample := (h.events x (hd.mem_iff.mp hx)).tid (by omega)
  rw [heid] at hentry
  rw [hxid, hentry] at hsample
  exact hst.trans hsample.symm

/-- The records of two invocations of one thread do not interleave. -/
theorem spans_disjoint (h : k.Owned own horizon) (hd : delivered.Perm k.events) {i j : Invocation}
    {e r e' r' : Event} (hi : Spans delivered i e r) (hj : Spans delivered j e' r') (htid : i.tid = j.tid)
    (hlt : i.id < j.id) : i.endNs ≤ j.startNs := by
  have hentry := h.events e (hd.mem_iff.mp hi.entry.1)
  have hret := h.events r (hd.mem_iff.mp hi.ret.1)
  have hrtid : e'.tid = r.tid := by
    have h₁ := hentry.tid (by rw [hi.entry.2.1]; decide)
    have h₂ := hret.tid (by rw [hi.ret.2.1]; decide)
    rw [hi.entry.2.2] at h₁
    rw [hi.ret.2.2, h₁, ← hi.tid, htid, hj.tid] at h₂
    exact h₂
  rw [hi.endNs, hj.startNs]
  refine h.ordered r (hd.mem_iff.mp hi.ret.1) hi.ret.2.1 e' (hd.mem_iff.mp hj.entry.1) hj.entry.2.1 hrtid ?_
  rw [hi.ret.2.2, hj.entry.2.2]
  exact hlt

/-! ## Runs -/

/-- Every id has an owner, and no record is later than the clock. -/
def Machine.Owned (m : Machine) : Prop := ∃ own, m.kernel.Owned own fun _ => m.clock + 1

variable {config : SliceConfig} {m m' : Machine}

/-- What a step does, action by action. -/
inductive Machine.Steps (config : SliceConfig) (m : Machine) : KernelAction → Machine → Prop where
  | entry {ctx : EntryContext} (hnow : m.clock ≤ ctx.now) (hfree : ctx.tid ∉ m.returning) :
      Steps config m (.entry ctx) { m with kernel := m.kernel.sliceEntry config ctx, clock := ctx.now }
  | unmatched {ctx : ProbeContext} (hnow : m.clock ≤ ctx.now) (hfree : ctx.tid ∉ m.returning)
      (ha : m.kernel.activeByTid.lookup ctx.tid = none) :
      Steps config m (.ret ctx) { m with kernel := m.kernel.sliceReturn ctx, clock := ctx.now }
  | closed {ctx : ProbeContext} {active : Kernel.ActiveInvocation} (hnow : m.clock ≤ ctx.now)
      (hfree : ctx.tid ∉ m.returning) (ha : m.kernel.activeByTid.lookup ctx.tid = some active) :
      Steps config m (.ret ctx)
        { m with
          kernel := m.kernel.emit ctx 2 ctx.tid ctx.now active.id (-1) 0
          returning := insert ctx.tid m.returning
          clock := ctx.now }
  | retDeletes {tid : Nat} (hreturning : tid ∈ m.returning) :
      Steps config m (.retDeletes tid)
        { m with kernel := m.kernel.sliceReturnDeletes tid, returning := m.returning.erase tid }
  | sample {ctx : SampleContext} (hnow : m.clock ≤ ctx.now) :
      Steps config m (.sample ctx) { m with kernel := m.kernel.sliceSample config ctx, clock := ctx.now }
  | schedSwitch {ctx : SwitchContext} (hnow : m.clock ≤ ctx.now) :
      Steps config m (.schedSwitch ctx) { m with kernel := m.kernel.sliceSchedSwitch ctx, clock := ctx.now }

theorem Machine.steps_of_step {a : KernelAction} (hs : m.step config a = some m') : m.Steps config a m' := by
  cases a with
  | entry ctx =>
      simp only [Machine.step, Option.ite_none_right_eq_some, Option.some.injEq] at hs
      obtain ⟨⟨hnow, hfree⟩, rfl⟩ := hs
      exact .entry hnow hfree
  | ret ctx =>
      simp only [Machine.step, Option.ite_none_right_eq_some] at hs
      obtain ⟨⟨hnow, hfree⟩, hs⟩ := hs
      cases ha : m.kernel.activeByTid.lookup ctx.tid with
      | none =>
          simp only [ha, Option.some.injEq] at hs
          subst hs
          exact .unmatched hnow hfree ha
      | some active =>
          simp only [ha, Option.some.injEq] at hs
          subst hs
          exact .closed hnow hfree ha
  | retDeletes tid =>
      simp only [Machine.step, Option.ite_none_right_eq_some, Option.some.injEq] at hs
      obtain ⟨hreturning, rfl⟩ := hs
      exact .retDeletes hreturning
  | sample ctx =>
      simp only [Machine.step, Option.ite_none_right_eq_some, Option.some.injEq] at hs
      obtain ⟨hnow, rfl⟩ := hs
      exact .sample hnow
  | schedSwitch ctx =>
      simp only [Machine.step, Option.ite_none_right_eq_some, Option.some.injEq] at hs
      obtain ⟨hnow, rfl⟩ := hs
      exact .schedSwitch hnow

theorem Machine.Owned.step {a : KernelAction} (h : m.Owned) (hs : m.step config a = some m') : m'.Owned := by
  obtain ⟨own, h⟩ := h
  have hle : ∀ now, m.clock ≤ now → ∀ _ : Nat, m.clock + 1 ≤ now + 1 := fun _ hc _ => Nat.succ_le_succ hc
  cases Machine.steps_of_step hs with
  | entry hnow => exact ⟨_, h.sliceEntry (hle _ hnow) rfl⟩
  | unmatched hnow => exact ⟨own, h.sliceReturn (hle _ hnow) (Nat.succ_le_succ hnow) (Nat.lt_succ_self _)⟩
  | closed hnow _ ha => exact ⟨own, h.emitActive ha (by simp) (hle _ hnow) (Nat.succ_le_succ hnow) (Nat.lt_succ_self _)⟩
  | retDeletes => exact ⟨own, h.sliceReturnDeletes⟩
  | sample hnow => exact ⟨own, h.sliceSample (hle _ hnow) (Nat.succ_le_succ hnow) (Nat.lt_succ_self _)⟩
  | schedSwitch hnow =>
      exact ⟨own, h.sliceSchedSwitch (hle _ hnow) (fun _ => Nat.succ_le_succ hnow) fun _ => Nat.lt_succ_self _⟩

theorem Machine.owned_of_run {actions : List KernelAction} (h : run (Machine.step config) {} actions = some m) :
    m.Owned :=
  run_invariant Machine.Owned (C := fun _ _ => True) (fun _ _ _ hI _ hs => Machine.Owned.step hI hs)
    ⟨fun _ => (0, 0), .initial⟩ (along_of_forall fun _ _ => trivial) h

end SliceProfiler
