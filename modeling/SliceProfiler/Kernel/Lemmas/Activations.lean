import SliceProfiler.Capture.Lemmas.Events
import SliceProfiler.Kernel.Lemmas.Calls

/-!
# Activations and their records

Which records an activation leaves, depending on the calls that started inside it.
-/

namespace SliceProfiler

open Lib

variable {config : SliceConfig} {w w' : World} {p : Probe} {own : Nat → Nat × Nat}

/-- No call of the thread started between the entry of `c` and the instant `r`. -/
def World.Leaf (w : World) (c : Call) (r : Nat) : Prop :=
  ∀ d ∈ w.entered, d.tid = c.tid → c.enterNs < d.enterNs → r ≤ d.enterNs

theorem World.Leaf.of_enter {ctx : EntryContext} {c : Call} {r : Nat} (h : (w.enter config ctx).Leaf c r) :
    w.Leaf c r := fun d hd => h d (List.mem_cons_of_mem _ hd)

/-! ## Open calls -/

/-- An open call that has an id, and inside which no call started, is the active invocation of its thread.
No violation was recorded since its entry. -/
def World.OpenLeaves (w : World) : Prop :=
  ∀ c i, c.id = some i → c ∈ w.callStack c.tid → w.Leaf c (w.clock c.tid) →
    (∃ a, w.kernel.activeByTid.lookup c.tid = some a ∧ a.id = i) ∧
      ∀ v ∈ w.kernel.events, v.kind = 4 → v.tid = c.tid → v.timestampNs < c.enterNs

theorem World.OpenLeaves.enter {ctx : EntryContext} (h : w.OpenLeaves) (ht : w.Tracked own)
    (hnow : w.clock ctx.tid ≤ ctx.now) (hs : w.Steps config (.call ctx) (w.enter config ctx)) :
    (w.enter config ctx).OpenLeaves := by
  intro c i hi hc hleaf
  by_cases hct : c.tid = ctx.tid
  · have hc' : c = w.callOf ctx ∨ c ∈ w.callStack ctx.tid := by
      rw [hct] at hc
      simpa [World.enter] using hc
    rcases hc' with rfl | hc'
    · obtain ⟨hn, hu, rfl⟩ := callOf_id.mp hi
      refine ⟨⟨_, by rw [lookup_enter, if_pos ⟨hct, hn, hu⟩], rfl⟩, fun v hv hk hvt => ?_⟩
      rcases hs.mem_events.mp hv with hv | ⟨-, hv⟩
      · exact ht.event_lt hv (hvt.trans hct) hnow
      · -- the entry found no active invocation, so its record is not a violation
        cases hv with
        | nested ha => rw [hn] at ha; cases ha
        | opened => cases hk
    · -- the new call started inside `c`
      have hlt := ht.entered_lt (ht.stackMem _ c hc').1 hct hnow
      have hle := hleaf (w.callOf ctx) List.mem_cons_self hct.symm hlt
      simp only [World.enter, hct, Function.update_self, World.callOf] at hle
      omega
  · simp only [World.enter, Function.update_of_ne hct] at hc
    have hclock : (w.enter config ctx).clock c.tid = w.clock c.tid := by
      simp [World.enter, Function.update_of_ne hct]
    rw [hclock] at hleaf
    obtain ⟨ha, hv⟩ := h c i hi hc hleaf.of_enter
    refine ⟨by rw [lookup_enter, if_neg (by tauto)]; exact ha, fun v hvm hk hvt => ?_⟩
    rcases hs.mem_events.mp hvm with hvm | ⟨-, hvm⟩
    · exact hv v hvm hk hvt
    · exact absurd (hvt.symm.trans hvm.tid) hct

theorem World.OpenLeaves.leave {ctx : ProbeContext} {x : Call} {rest : List Call} (h : w.OpenLeaves)
    (ht : w.Tracked own) (hnow : w.clock ctx.tid ≤ ctx.now) (hstack : w.callStack ctx.tid = x :: rest)
    (hs : w.Steps config (.ret ctx) (w.leave x rest ctx)) : (w.leave x rest ctx).OpenLeaves := by
  intro c i hi hc hleaf
  by_cases hct : c.tid = ctx.tid
  · -- the call that returned started inside the calls below it
    rw [hct] at hc
    simp only [World.leave, Function.update_self] at hc
    obtain ⟨hx, hxt⟩ := ht.top_mem hstack
    have hlt := ht.entered_lt hx hxt hnow
    have hle := hleaf x hx (hxt.trans hct.symm) (ht.below_top hstack hc)
    simp only [World.leave, hct, Function.update_self] at hle
    omega
  · simp only [World.leave, Function.update_of_ne hct] at hc
    have hclock : (w.leave x rest ctx).clock c.tid = w.clock c.tid := by
      simp [World.leave, Function.update_of_ne hct]
    rw [hclock] at hleaf
    obtain ⟨ha, hv⟩ := h c i hi hc hleaf
    refine ⟨by rw [lookup_leave, if_neg hct]; exact ha, fun v hvm hk hvt => ?_⟩
    rcases hs.mem_events.mp hvm with hvm | ⟨-, hvm⟩
    · exact hv v hvm hk hvt
    · exact absurd (hvt.symm.trans hvm.tid) hct

theorem World.OpenLeaves.step (h : w.OpenLeaves) (ht : w.Tracked own) (hs : w.Steps config p w') :
    w'.OpenLeaves := by
  have hs' := hs
  cases hs with
  | call hnow => exact h.enter ht hnow hs'
  | ret hnow hstack => exact h.leave ht hnow hstack hs'

/-- The call that returns is the active invocation of its thread when it is a leaf. -/
theorem World.OpenLeaves.top {tid now i : Nat} {c : Call} {rest : List Call} (h : w.OpenLeaves) (ht : w.Tracked own)
    (hnow : w.clock tid ≤ now) (hstack : w.callStack tid = c :: rest) (hi : c.id = some i) (hleaf : w.Leaf c now) :
    (∃ a, w.kernel.activeByTid.lookup tid = some a ∧ a.id = i) ∧
      ∀ v ∈ w.kernel.events, v.kind = 4 → v.tid = tid → v.timestampNs < c.enterNs := by
  obtain ⟨-, rfl⟩ := ht.top_mem hstack
  exact h c i hi (hstack ▸ List.mem_cons_self) fun d hd hdt hlt => hnow.trans (hleaf d hd hdt hlt)

/-! ## Violations -/

/-- Every call that started since the entry of the active invocation of its thread has a record of a violation. -/
def World.Witnessed (w : World) : Prop :=
  ∀ tid a, w.kernel.activeByTid.lookup tid = some a → ∀ d ∈ w.entered, d.tid = tid → a.startNs < d.enterNs →
    ∃ v ∈ w.kernel.events, v.kind = 4 ∧ v.tid = tid ∧ v.timestampNs = d.enterNs

theorem World.Witnessed.step (h : w.Witnessed) (ht : w.Tracked own) (hs : w.Steps config p w')
    (hres : p.context.reserved = true) : w'.Witnessed := by
  have hmono : ∀ v ∈ w.kernel.events, v ∈ w'.kernel.events := fun v hv => hs.mem_events.mpr (.inl hv)
  intro tid a ha d hd hdt hlt
  have hs' := hs
  cases hs with
  | @call ctx hnow =>
      rw [lookup_enter] at ha
      split at ha
      · -- the entry of the new active invocation is the latest one of its thread
        rename_i hc
        obtain ⟨rfl, -, -⟩ := hc
        cases ha
        rcases List.mem_cons.mp hd with rfl | hd
        · exact absurd hlt (lt_irrefl _)
        · exact absurd (ht.entered_lt hd hdt hnow) hlt.not_gt
      · rename_i hc
        rcases List.mem_cons.mp hd with rfl | hd
        · have hdt' : ctx.tid = tid := hdt
          subst hdt'
          exact ⟨_, hs'.mem_events.mpr (.inr ⟨hres, .nested ha⟩), rfl, rfl, rfl⟩
        · obtain ⟨v, hv, hv'⟩ := h tid a ha d hd hdt hlt
          exact ⟨v, hmono v hv, hv'⟩
  | @ret ctx c rest hnow hstack =>
      rw [lookup_leave] at ha
      split at ha
      · cases ha
      · obtain ⟨v, hv, hv'⟩ := h tid a ha d hd hdt hlt
        exact ⟨v, hmono v hv, hv'⟩

/-! ## Return records -/

/-- A violation lies between the entry of the identity, if that was recorded, and the return. -/
def World.Violated (w : World) (r : Event) : Prop :=
  ∀ e ∈ w.kernel.events, e.kind = 1 → e.invocationId = r.invocationId →
    ∃ v ∈ w.kernel.events, v.kind = 4 ∧ v.tid = r.tid ∧ e.timestampNs ≤ v.timestampNs ∧
      v.timestampNs ≤ r.timestampNs

/-- The records that come later do not belong to the identity. -/
theorem World.Violated.step {r : Event} (h : w.Violated r) (ht : w.Tracked own) (hs : w.Steps config p w')
    (hr : r ∈ w.kernel.events) (hk : r.kind = 2) : w'.Violated r := by
  intro e he hek heid
  rcases hs.mem_events.mp he with he | ⟨-, he⟩
  · obtain ⟨v, hv, hv'⟩ := h e he hek heid
    exact ⟨v, hs.mem_events.mpr (.inl hv), hv'⟩
  · have hfresh := (ht.owned.events r hr).fresh (by omega)
    cases he with
    | opened => dsimp only at heid; omega
    | nested | unmatched | closed => cases hek

/-- The return record stems from the call that its identity was given to. -/
def World.Returns (w : World) (r : Event) (c : Call) : Prop :=
  (c, r.timestampNs) ∈ w.returned ∧ c.tid = r.tid ∧ c.id = some r.invocationId

theorem World.Returns.step {r : Event} {c : Call} (h : w.Returns r c) (hs : w.Steps config p w') :
    w'.Returns r c := by
  refine ⟨?_, h.2⟩
  cases hs with
  | call => exact h.1
  | ret => exact List.mem_cons_of_mem _ h.1

/-- The entry record of the identity of a call is the entry of the call. -/
theorem World.Returns.entry {r e : Event} {c : Call} (h : w.Returns r c) (ht : w.Tracked own)
    (he : e ∈ w.kernel.events) (hk : e.kind = 1) (hid : e.invocationId = r.invocationId) :
    e.tid = c.tid ∧ e.timestampNs = c.enterNs := by
  have hown := (ht.ids c (ht.returnedPast _ h.1).1 _ h.2.2).2
  have htid := (ht.owned.events e he).tid (by omega)
  have hstart := (ht.owned.events e he).entry hk
  rw [hid, hown] at htid hstart
  exact ⟨htid.symm, hstart.symm⟩

end SliceProfiler
