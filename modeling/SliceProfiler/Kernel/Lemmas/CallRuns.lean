import SliceProfiler.Kernel.Lemmas.Recorded

/-!
# Runs of calls
-/

namespace SliceProfiler

open Lib

variable {config : SliceConfig} {w w' : World} {p : Probe} {own : Nat → Nat × Nat} {probes : List Probe}

theorem World.unconcealed_of_run (h : run (World.step config) {} probes = some w)
    (hC : Along (World.step config) World.Visible {} probes) :
    ∃ own, w.Tracked own ∧ w.Unconcealed := by
  have hstep : ∀ (w : World) p w', (∃ own, w.Tracked own ∧ w.Unconcealed) → w.Visible p →
      w.step config p = some w' → ∃ own, w'.Tracked own ∧ w'.Unconcealed := by
    rintro w p w' ⟨own, ht, hu⟩ hp hs
    obtain ⟨own', ht'⟩ := ht.step (steps_of_step hs)
    exact ⟨own', ht', hu.step ht (steps_of_step hs) hp⟩
  exact run_invariant (fun w => ∃ own, w.Tracked own ∧ w.Unconcealed) hstep
    ⟨fun _ => (0, 0), .initial, by rintro r ⟨⟩⟩ hC h

/-- What holds while no record is lost. -/
structure World.Lossless (own : Nat → Nat × Nat) (w : World) : Prop where
  tracked : w.Tracked own
  openLeaves : w.OpenLeaves
  witnessed : w.Witnessed
  exact : w.Exact

theorem World.Lossless.initial : ({} : World).Lossless own :=
  ⟨.initial, by rintro c i hi ⟨⟩, by rintro tid a ⟨⟩, by rintro r ⟨⟩⟩

theorem World.Lossless.step (h : w.Lossless own) (hs : w.step config p = some w')
    (hres : p.context.reserved = true) : ∃ own', w'.Lossless own' := by
  have hs := steps_of_step hs
  obtain ⟨own', ht⟩ := h.tracked.step hs
  exact ⟨own', ht, h.openLeaves.step h.tracked hs, h.witnessed.step h.tracked hs hres,
    h.exact.step h.tracked h.witnessed hs⟩

theorem World.outermost_of_run (h : run (World.step config) {} probes = some w)
    (hres : ∀ p ∈ probes, p.context.reserved = true)
    (hC : Along (World.step config) World.ReturnsOutermost {} probes) :
    ∃ own, w.Lossless own ∧ w.OutermostLeaves := by
  have hstep : ∀ (w : World) p w', (∃ own, w.Lossless own ∧ w.OutermostLeaves) →
      p.context.reserved = true ∧ w.ReturnsOutermost p → w.step config p = some w' →
      ∃ own, w'.Lossless own ∧ w'.OutermostLeaves := by
    rintro w p w' ⟨own, hl, ho⟩ ⟨hres, hp⟩ hs
    obtain ⟨own', hl'⟩ := hl.step hs hres
    exact ⟨own', hl', ho.step hl.tracked hl.openLeaves (steps_of_step hs) hp⟩
  exact run_invariant (fun w => ∃ own, w.Lossless own ∧ w.OutermostLeaves) hstep
    ⟨fun _ => (0, 0), .initial, by rintro c r i ⟨⟩⟩ ((along_of_forall hres).and hC) h

theorem World.recorded_of_run (h : run (World.step config) {} probes = some w)
    (hres : ∀ p ∈ probes, p.context.reserved = true) :
    ∃ own, w.Lossless own ∧ w.OneRecord ∧ w.EntryRecorded ∧ w.LeafRecorded := by
  have hstep : ∀ (w : World) p w', (∃ own, w.Lossless own ∧ w.OneRecord ∧ w.EntryRecorded ∧ w.LeafRecorded) →
      p.context.reserved = true → w.step config p = some w' →
      ∃ own, w'.Lossless own ∧ w'.OneRecord ∧ w'.EntryRecorded ∧ w'.LeafRecorded := by
    rintro w p w' ⟨own, hl, h1, he, hr⟩ hres hs
    have hs' := steps_of_step hs
    obtain ⟨own', hl'⟩ := hl.step hs hres
    exact ⟨own', hl', h1.step hl.tracked hs', he.step hs' hres, hr.step hl.tracked hl.openLeaves hs' hres⟩
  have h1 : ({} : World).OneRecord := ⟨fun _ => Nat.zero_le _, fun _ => Nat.zero_le _, fun _ _ _ => rfl⟩
  have hinit : ∃ own, ({} : World).Lossless own ∧ ({} : World).OneRecord ∧ ({} : World).EntryRecorded ∧
      ({} : World).LeafRecorded :=
    ⟨fun _ => (0, 0), .initial, h1, by rintro c ⟨⟩, by rintro c r i ⟨⟩⟩
  exact run_invariant (fun w => ∃ own, w.Lossless own ∧ w.OneRecord ∧ w.EntryRecorded ∧ w.LeafRecorded) hstep
    hinit (along_of_forall hres) h

/-! ## Valid invocations -/

section Capture

variable {request : CaptureRequest} {resolver : Resolver} {store : StackStore} {names : Map Nat String}
  {now eventsDropped samplesDropped finishNs : Nat} {release : String} {delivered : List Event} {inv : Invocation}

/-- Without losses a valid invocation is a leaf. -/
theorem World.Lossless.leaf_of_valid (h : w.Lossless own) (hd : delivered.Perm w.kernel.events)
    (hinv : inv ∈ (capture request resolver store names now release eventsDropped samplesDropped delivered
      finishNs).invocations) (hv : inv.valid = true) :
    ∃ c, w.Leaf c inv.endNs ∧ c.id = some inv.id ∧ (c, inv.endNs) ∈ w.returned ∧ c.tid = inv.tid ∧
      c.enterNs = inv.startNs := by
  obtain ⟨e, r, hspans⟩ := spans_of_valid hinv hv
  have hr := h.exact r (hd.mem_iff.mp hspans.ret.1) hspans.ret.2.1
  rw [← hspans.endNs] at hr
  exact h.tracked.call_of_spans hd hspans hr

/-- Without losses a leaf that has an id and returned is valid. -/
theorem World.Lossless.valid_of_leaf (h : w.Lossless own) (h1 : w.OneRecord) (he : w.EntryRecorded)
    (hl : w.LeafRecorded) (hd : delivered.Perm w.kernel.events) {c : Call} {r i : Nat} (hc : (c, r) ∈ w.returned)
    (hi : c.id = some i) (hleaf : w.Leaf c r) :
    ∃ inv ∈ (capture request resolver store names now release eventsDropped samplesDropped delivered
      finishNs).invocations, inv.id = i ∧ inv.complete = true ∧ inv.valid = true := by
  have hce := (h.tracked.returnedPast _ hc).1
  obtain ⟨e, hem, hek, heid, het, hets⟩ := he c hce i hi
  obtain ⟨⟨x, hxm, hxk, hxid, hxt, hxts⟩, hclear⟩ := hl c r i hc hi hleaf
  have hown := (h.tracked.ids c hce i hi).2
  have hcount : ∀ kind, countRecords kind i delivered = countRecords kind i w.kernel.events :=
    fun kind => hd.countP_eq _
  refine exists_valid ⟨hd.mem_iff.mpr hem, hek, heid⟩ ⟨hd.mem_iff.mpr hxm, hxk, hxid⟩ ((hcount 1).trans_le (h1.entry i))
    ((hcount 2).trans_le (h1.ret i)) (fun y hy hyk hyid => ?_) ?_ fun v hv hvk hvt hle => ?_
  · have hyt := (h.tracked.owned.events y (hd.mem_iff.mp hy)).tid hyk
    rw [hyid, hown] at hyt
    exact hyt.symm.trans het.symm
  · have hret := (h.tracked.owned.events x hxm).ret hxk
    rw [hxid, hown] at hret
    rw [hets]; exact hret
  · rw [hxts]
    exact hclear v (hd.mem_iff.mp hv) hvk (hvt.trans het) (hets ▸ hle)

end Capture

end SliceProfiler
