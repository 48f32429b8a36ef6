import SliceProfiler.Kernel.Lemmas.Activations

/-!
# Return records and the calls they stem from
-/

namespace SliceProfiler

open Lib

variable {config : SliceConfig} {w w' : World} {p : Probe} {own : Nat → Nat × Nat}

/-- A valid invocation stems from a call, unless a violation betrays its return record. -/
theorem World.Tracked.call_of_spans {inv : Invocation} {e r : Event} {delivered : List Event} {P : Call → Prop}
    (ht : w.Tracked own) (hd : delivered.Perm w.kernel.events) (hspans : Spans delivered inv e r)
    (h : (∃ c, w.Returns r c ∧ P c) ∨ w.Violated r) :
    ∃ c, P c ∧ c.id = some inv.id ∧ (c, inv.endNs) ∈ w.returned ∧ c.tid = inv.tid ∧ c.enterNs = inv.startNs := by
  obtain ⟨⟨he, hek, heid⟩, ⟨hr, hrk, hrid⟩, htid, hstart, hend, hclear⟩ := hspans
  have he' := hd.mem_iff.mp he
  have hr' := hd.mem_iff.mp hr
  have hid : e.invocationId = r.invocationId := heid.trans hrid.symm
  rcases h with ⟨c, hc, hP⟩ | hv
  · obtain ⟨hct, hcs⟩ := hc.entry ht he' hek hid
    refine ⟨c, hP, hrid ▸ hc.2.2, hend ▸ hc.1, ?_, ?_⟩
    · rw [htid, hct]
    · rw [hstart, hcs]
  · obtain ⟨v, hvm, hvk, hvt, hle, hle'⟩ := hv e he' hek hid
    have hetid := (ht.owned.events e he').tid (by omega)
    have hrtid := (ht.owned.events r hr').tid (by omega)
    rw [hid, hrtid] at hetid
    exact absurd (hclear v (hd.mem_iff.mpr hvm) hvk (hvt.trans hetid) hle) hle'.not_gt

/-! ## Lost records -/

/-- Whenever a call returns while another call's identity is active, the return record is lost, or the entry
record of the identity was lost, or a violation since that entry was recorded. -/
def World.Visible (w : World) : Probe → Prop
  | .call _ => True
  | .ret ctx => ∀ a ∈ w.kernel.activeByTid.lookup ctx.tid, ∀ c ∈ (w.callStack ctx.tid).head?, c.id ≠ some a.id →
      ctx.reserved = true → ∀ e ∈ w.kernel.events, e.kind = 1 → e.invocationId = a.id →
        ∃ v ∈ w.kernel.events, v.kind = 4 ∧ v.tid = ctx.tid ∧ e.timestampNs ≤ v.timestampNs

instance World.decidableVisible (w : World) : (p : Probe) → Decidable (w.Visible p)
  | .call _ => inferInstanceAs (Decidable True)
  | .ret ctx => inferInstanceAs (Decidable (∀ a ∈ w.kernel.activeByTid.lookup ctx.tid,
      ∀ c ∈ (w.callStack ctx.tid).head?, c.id ≠ some a.id → ctx.reserved = true →
        ∀ e ∈ w.kernel.events, e.kind = 1 → e.invocationId = a.id →
          ∃ v ∈ w.kernel.events, v.kind = 4 ∧ v.tid = ctx.tid ∧ e.timestampNs ≤ v.timestampNs))

/-- Every return record stems from the call of its identity, or is betrayed by a violation. -/
def World.Unconcealed (w : World) : Prop :=
  ∀ r ∈ w.kernel.events, r.kind = 2 → (∃ c, w.Returns r c) ∨ w.Violated r

theorem World.Unconcealed.step (h : w.Unconcealed) (ht : w.Tracked own) (hs : w.Steps config p w')
    (hp : w.Visible p) : w'.Unconcealed := by
  intro r hr hk
  rcases hs.mem_events.mp hr with hr | ⟨hres, hr⟩
  · rcases h r hr hk with ⟨c, hc⟩ | hv
    · exact .inl ⟨c, hc.step hs⟩
    · exact .inr (hv.step ht hs hr hk)
  · have hs' := hs
    cases hr with
    | nested | opened | unmatched => cases hk
    | @closed ctx a ha =>
        cases hs with
        | @ret _ c rest hnow hstack =>
            have hc := ht.top_mem hstack
            by_cases hid : c.id = some a.id
            · exact .inl ⟨c, List.mem_cons_self, hc.2, hid⟩
            · refine .inr fun e he hek heid => ?_
              rcases hs'.mem_events.mp he with he | ⟨-, he⟩
              · obtain ⟨v, hv, hvk, hvt, hle⟩ := hp a ha c (by rw [hstack]; rfl) hid hres e he hek heid
                exact ⟨v, hs'.mem_events.mpr (.inl hv), hvk, hvt, hle, (ht.event_lt hv hvt hnow).le⟩
              · cases he <;> cases hek

/-! ## Leaves -/

theorem World.Leaf.step {c : Call} {r : Nat} (h : w.Leaf c r) (hr : r < w.clock c.tid)
    (hs : w.Steps config p w') : w'.Leaf c r := by
  cases hs with
  | @call ctx hnow =>
      intro d hd hdt hlt
      rcases List.mem_cons.mp hd with rfl | hd
      · have hdt' : ctx.tid = c.tid := hdt
        rw [hdt'] at hnow
        exact hr.le.trans hnow
      · exact h d hd hdt hlt
  | ret => exact h

/-- Without losses a return record stems from a leaf, or is betrayed by a violation. -/
def World.Exact (w : World) : Prop :=
  ∀ r ∈ w.kernel.events, r.kind = 2 → (∃ c, w.Returns r c ∧ w.Leaf c r.timestampNs) ∨ w.Violated r

/-- The call that returns is a leaf and owns the active invocation, or another call of the thread started after
the entry of the active invocation. -/
theorem World.Tracked.leaf_or_later {tid now : Nat} {a : Kernel.ActiveInvocation} {c : Call} {rest : List Call}
    (ht : w.Tracked own) (hnow : w.clock tid ≤ now) (ha : w.kernel.activeByTid.lookup tid = some a)
    (hstack : w.callStack tid = c :: rest) :
    (c.id = some a.id ∧ w.Leaf c now) ∨ ∃ d ∈ w.entered, d.tid = tid ∧ a.startNs < d.enterNs ∧ d.enterNs < now := by
  have hmem : ∀ d ∈ w.callStack tid, d ∈ w.entered ∧ d.tid = tid ∧ d.enterNs < now := by
    intro d hd
    obtain ⟨hd, hdt⟩ := ht.stackMem tid d hd
    exact ⟨hd, hdt, ht.entered_lt hd hdt hnow⟩
  have hown : ∀ d ∈ w.callStack tid, d.id = some a.id → d.enterNs = a.startNs := by
    intro d hd hid
    have h := (ht.ids d (hmem d hd).1 _ hid).2
    rw [(ht.owned.active tid a ha).own] at h
    exact (Prod.mk.inj h).2.symm
  have hc : c ∈ w.callStack tid := by rw [hstack]; exact List.mem_cons_self
  by_cases hid : c.id = some a.id
  · by_cases hleaf : w.Leaf c now
    · exact .inl ⟨hid, hleaf⟩
    · simp only [World.Leaf, not_forall, not_le] at hleaf
      obtain ⟨d, hd, hdt, hlt, hlt'⟩ := hleaf
      exact .inr ⟨d, hd, hdt.trans (hmem c hc).2.1, hown c hc hid ▸ hlt, hlt'⟩
  · -- the call that became active is still open, below the one that returns
    obtain ⟨d, hd, hdid⟩ := ht.activeCall tid a ha
    have hlt : d.enterNs < c.enterNs := by
      rcases List.mem_cons.mp (hstack ▸ hd) with rfl | hd
      · exact absurd hdid hid
      · exact ht.below_top hstack hd
    exact .inr ⟨c, (hmem c hc).1, (hmem c hc).2.1, hown d hd hdid ▸ hlt, (hmem c hc).2.2⟩

theorem World.Exact.step (h : w.Exact) (ht : w.Tracked own) (hv : w.Witnessed) (hs : w.Steps config p w') :
    w'.Exact := by
  intro r hr hk
  rcases hs.mem_events.mp hr with hr | ⟨hres, hr⟩
  · rcases h r hr hk with ⟨c, hc, hleaf⟩ | hv
    · exact .inl ⟨c, hc.step hs, hleaf.step (ht.returnedPast _ hc.1).2 hs⟩
    · exact .inr (hv.step ht hs hr hk)
  · have hs' := hs
    cases hr with
    | nested | opened | unmatched => cases hk
    | @closed ctx a ha =>
        cases hs with
        | @ret _ c rest hnow hstack =>
            have hc := ht.top_mem hstack
            rcases ht.leaf_or_later hnow ha hstack with ⟨hid, hleaf⟩ | ⟨d, hd, hdt, hlt, hlt'⟩
            · exact .inl ⟨c, ⟨List.mem_cons_self, hc.2, hid⟩, hleaf⟩
            · refine .inr fun e he hek heid => ?_
              obtain ⟨v, hvm, hvk, hvt, hvd⟩ := hv ctx.tid a ha d hd hdt hlt
              rcases hs'.mem_events.mp he with he | ⟨-, he⟩
              · have hstart := (ht.owned.events e he).entry hek
                dsimp only at heid
                rw [heid, (ht.owned.active ctx.tid a ha).own] at hstart
                dsimp only at hstart
                exact ⟨v, hs'.mem_events.mpr (.inl hvm), hvk, hvt, by omega, by dsimp only; omega⟩
              · cases he <;> cases hek

/-! ## Nested calls -/

/-- Whenever a call returns while its own identity is active, no other call of its thread is open. -/
def World.ReturnsOutermost (w : World) : Probe → Prop
  | .call _ => True
  | .ret ctx => ∀ a ∈ w.kernel.activeByTid.lookup ctx.tid, ∀ c ∈ (w.callStack ctx.tid).head?, c.id = some a.id →
      (w.callStack ctx.tid).tail = []

instance World.decidableReturnsOutermost (w : World) : (p : Probe) → Decidable (w.ReturnsOutermost p)
  | .call _ => inferInstanceAs (Decidable True)
  | .ret ctx => inferInstanceAs (Decidable (∀ a ∈ w.kernel.activeByTid.lookup ctx.tid,
      ∀ c ∈ (w.callStack ctx.tid).head?, c.id = some a.id → (w.callStack ctx.tid).tail = []))

/-- The calls of the thread that were entered before `start` returned until `finish`. -/
def World.Outermost (w : World) (tid start finish : Nat) : Prop :=
  ∀ d ∈ w.entered, d.tid = tid → d.enterNs < start →
    d ∉ w.callStack tid ∧ ∀ r, (d, r) ∈ w.returned → r ≤ finish

theorem World.Outermost.step {c : Call} {r : Nat} (h : w.Outermost c.tid c.enterNs r) (hc : (c, r) ∈ w.returned)
    (ht : w.Tracked own) (hs : w.Steps config p w') : w'.Outermost c.tid c.enterNs r := by
  have hce := (ht.returnedPast _ hc).1
  cases hs with
  | @call ctx hnow =>
      intro d hd hdt hlt
      rcases List.mem_cons.mp hd with rfl | hd
      · -- a new call starts after the calls so far
        exact absurd (ht.entered_lt hce hdt.symm hnow) hlt.not_gt
      · obtain ⟨hopen, hret⟩ := h d hd hdt hlt
        refine ⟨fun hm => ?_, hret⟩
        by_cases hct : c.tid = ctx.tid
        · simp only [World.enter, hct, Function.update_self, List.mem_cons] at hm
          rcases hm with rfl | hm
          · exact absurd (ht.entered_lt hce hct hnow) hlt.not_gt
          · rw [hct] at hopen
            exact hopen hm
        · simp only [World.enter, Function.update_of_ne hct] at hm
          exact hopen hm
  | @ret ctx x rest hnow hstack =>
      intro d hd hdt hlt
      obtain ⟨hopen, hret⟩ := h d hd hdt hlt
      have hx := ht.top_mem hstack
      refine ⟨fun hm => ?_, fun r' hr' => ?_⟩
      · by_cases hct : c.tid = ctx.tid
        · simp only [World.leave, hct, Function.update_self] at hm
          rw [hct, hstack] at hopen
          exact hopen (List.mem_cons_of_mem _ hm)
        · simp only [World.leave, Function.update_of_ne hct] at hm
          exact hopen hm
      · rcases List.mem_cons.mp hr' with he | hr'
        · -- the call that returns now was open
          obtain ⟨rfl, -⟩ := Prod.mk.inj he
          rw [← hdt, hx.2, hstack] at hopen
          exact absurd List.mem_cons_self hopen
        · exact hret r' hr'

/-- The leaves with an id that returned were outermost. -/
def World.OutermostLeaves (w : World) : Prop :=
  ∀ c r i, (c, r) ∈ w.returned → c.id = some i → w.Leaf c r → w.Outermost c.tid c.enterNs r

theorem World.OutermostLeaves.step (h : w.OutermostLeaves) (ht : w.Tracked own) (ho : w.OpenLeaves)
    (hs : w.Steps config p w') (hp : w.ReturnsOutermost p) : w'.OutermostLeaves := by
  intro c r i hc hi hleaf
  have hs' := hs
  cases hs with
  | call => exact (h c r i hc hi hleaf.of_enter).step hc ht hs'
  | @ret ctx x rest hnow hstack =>
      rcases List.mem_cons.mp hc with he | hc
      · obtain ⟨rfl, rfl⟩ := Prod.mk.inj he
        have hx := ht.top_mem hstack
        obtain ⟨⟨a, ha, rfl⟩, -⟩ := ho.top ht hnow hstack hi hleaf
        have hrest : rest = [] := by
          have := hp a ha c (by rw [hstack]; rfl) hi
          rwa [hstack] at this
        subst hrest
        intro d hd hdt hlt
        refine ⟨by simp [World.leave, hx.2], fun r' hr' => ?_⟩
        rcases List.mem_cons.mp hr' with he | hr'
        · obtain ⟨rfl, -⟩ := Prod.mk.inj he
          exact absurd hlt (lt_irrefl _)
        · exact (ht.returned_lt hr' (hdt.trans hx.2) hnow).le
      · exact (h c r i hc hi hleaf).step hc ht hs'

end SliceProfiler
