import SliceProfiler.Capture.Lemmas.OffCpu
import SliceProfiler.Core.Lemmas.Query
import SliceProfiler.Kernel.Lemmas.CallRuns

/-!
# The calls that a report should measure

A leaf is a call that returned with an identity of its own, and without a call inside. Without losses the valid
invocations of a capture are the leaves, each once.
-/

namespace SliceProfiler

open Lib

instance (w : World) (c : Call) (r : Nat) : Decidable (w.Leaf c r) :=
  inferInstanceAs (Decidable (∀ d ∈ w.entered, d.tid = c.tid → c.enterNs < d.enterNs → r ≤ d.enterNs))

/-- The leaves with the instants of their returns. -/
def World.leaves (w : World) : List (Call × Nat) := w.returned.filter fun x => x.1.id.isSome ∧ w.Leaf x.1 x.2

/-- What an invocation of the call should tell. -/
def spanOf (x : Call × Nat) : Nat × Nat × Nat := (x.1.tid, x.1.enterNs, x.2)

def Invocation.span (i : Invocation) : Nat × Nat × Nat := (i.tid, i.startNs, i.endNs)

/-- The filters of the query on threads and starts. -/
def Query.takes (q : Query) (x : Call × Nat) : Bool :=
  q.threads.all (fun threads => x.1.tid ∈ threads) && q.time.all (fun time => time.containsStart x.1.enterNs)

/-- The latencies of the leaves that the query takes, in increasing order. -/
def World.latencies (w : World) (q : Query) : List Nat :=
  sortByKey id ((w.leaves.filter q.takes).map fun x => x.2 - x.1.enterNs)

variable {config : SliceConfig} {w w' : World} {p : Probe} {own : Nat → Nat × Nat} {probes : List Probe}

/-- What the steps keep beside the tracked calls holds after a run. -/
theorem World.invariant_of_run {C : World → Probe → Prop} (I : World → Prop) (hI : I {})
    (hstep : ∀ own w p w', w.Tracked own → I w → C w p → w.Steps config p w' → I w')
    (hC : Along (World.step config) C {} probes) (h : run (World.step config) {} probes = some w) :
    ∃ own, w.Tracked own ∧ I w := by
  refine run_invariant (fun w => ∃ own, w.Tracked own ∧ I w) ?_ ⟨fun _ => (0, 0), .initial, hI⟩ hC h
  rintro w p w' ⟨own, ht, hw⟩ hp hs
  obtain ⟨own', ht'⟩ := ht.step (steps_of_step hs)
  exact ⟨own', ht', hstep own w p w' ht hw hp (steps_of_step hs)⟩

/-! ## Each call once -/

/-- No two calls of a thread start at once, and a call returns once, after its start. -/
structure World.Settled (w : World) : Prop where
  distinct : w.entered.Pairwise fun c d => c.tid = d.tid → d.enterNs < c.enterNs
  once : (w.returned.map Prod.fst).Nodup
  later : ∀ x ∈ w.returned, x.1.enterNs < x.2
  openCalls : ∀ tid, ∀ c ∈ w.callStack tid, c ∉ w.returned.map Prod.fst

theorem World.Settled.initial : ({} : World).Settled := ⟨.nil, .nil, by rintro x ⟨⟩, by rintro tid c ⟨⟩⟩

theorem World.Settled.enter {ctx : EntryContext} (h : w.Settled) (ht : w.Tracked own)
    (hnow : w.clock ctx.tid ≤ ctx.now) : (w.enter config ctx).Settled := by
  refine ⟨List.pairwise_cons.mpr ⟨fun d hd htid => ht.entered_lt hd htid.symm hnow, h.distinct⟩, h.once, h.later, ?_⟩
  intro tid c hc hret
  by_cases htid : tid = ctx.tid
  · subst htid
    simp only [World.enter, Function.update_self, List.mem_cons] at hc
    rcases hc with rfl | hc
    · obtain ⟨⟨c, r⟩, hx, he⟩ := List.mem_map.mp hret
      obtain ⟨hm, -⟩ := ht.returnedPast _ hx
      rw [he] at hm
      have hlt : ctx.now < ctx.now := ht.entered_lt hm rfl hnow
      exact lt_irrefl _ hlt
    · exact h.openCalls _ c hc hret
  · simp only [World.enter, Function.update_of_ne htid] at hc
    exact h.openCalls tid c hc hret

theorem World.Settled.leave {ctx : ProbeContext} {c : Call} {rest : List Call} (h : w.Settled) (ht : w.Tracked own)
    (hnow : w.clock ctx.tid ≤ ctx.now) (hstack : w.callStack ctx.tid = c :: rest) :
    (w.leave c rest ctx).Settled := by
  obtain ⟨hc, hct⟩ := ht.top_mem hstack
  refine ⟨h.distinct, ?_, ?_, ?_⟩
  · simp only [World.leave, List.map_cons, List.nodup_cons]
    exact ⟨h.openCalls ctx.tid c (hstack ▸ List.mem_cons_self), h.once⟩
  · intro x hx
    rcases List.mem_cons.mp hx with rfl | hx
    · exact ht.entered_lt hc hct hnow
    · exact h.later x hx
  · intro tid d hd
    simp only [World.leave, List.map_cons, List.mem_cons, not_or]
    by_cases htid : tid = ctx.tid
    · subst htid
      simp only [World.leave, Function.update_self] at hd
      have hlt := ht.below_top hstack hd
      refine ⟨?_, h.openCalls _ d (hstack ▸ List.mem_cons_of_mem _ hd)⟩
      rintro rfl
      exact lt_irrefl _ hlt
    · simp only [World.leave, Function.update_of_ne htid] at hd
      refine ⟨?_, h.openCalls tid d hd⟩
      rintro rfl
      exact htid ((ht.stackMem tid d hd).2.symm.trans hct)

theorem World.Settled.step (h : w.Settled) (ht : w.Tracked own) (hs : w.Steps config p w') : w'.Settled := by
  cases hs with
  | call hnow => exact h.enter ht hnow
  | ret hnow hstack => exact h.leave ht hnow hstack

theorem World.settled_of_run (h : run (World.step config) {} probes = some w) : w.Settled := by
  obtain ⟨-, -, hset⟩ := World.invariant_of_run World.Settled .initial (fun _ _ _ _ ht hset _ hs => hset.step ht hs)
    (along_of_forall (P := fun _ => True) fun _ _ => trivial) h
  exact hset

namespace World.Settled

theorem call_unique (h : w.Settled) {c d : Call} (hc : c ∈ w.entered) (hd : d ∈ w.entered) (ht : c.tid = d.tid)
    (hn : c.enterNs = d.enterNs) : c = d := by
  have hnodup : (w.entered.map fun c => (c.tid, c.enterNs)).Nodup := by
    refine List.pairwise_map.mpr (h.distinct.imp fun hlt he => ?_)
    obtain ⟨htid, hns⟩ := Prod.mk.inj he
    exact (hlt htid).ne' hns
  exact List.inj_on_of_nodup_map hnodup hc hd (Prod.ext ht hn)

theorem return_unique (h : w.Settled) {c : Call} {r r' : Nat} (hr : (c, r) ∈ w.returned) (hr' : (c, r') ∈ w.returned) :
    r = r' :=
  congrArg Prod.snd (List.inj_on_of_nodup_map h.once hr hr' rfl)

theorem leaves_nodup (h : w.Settled) : w.leaves.Nodup := (List.Nodup.of_map _ h.once).filter _

/-- The instants of a leaf tell which one it is. -/
theorem spans_nodup (h : w.Settled) (ht : w.Tracked own) (q : Query) :
    ((w.leaves.filter q.takes).map spanOf).Nodup := by
  refine (List.nodup_map_iff_inj_on (h.leaves_nodup.filter _)).mpr fun x hx y hy he => ?_
  have hret : ∀ z ∈ w.leaves.filter q.takes, z ∈ w.returned := fun z hz =>
    List.mem_of_mem_filter (List.mem_of_mem_filter hz)
  obtain ⟨htid, hrest⟩ := Prod.mk.inj he
  obtain ⟨hns, hr⟩ := Prod.mk.inj hrest
  have hx' := (ht.returnedPast x (hret x hx)).1
  have hy' := (ht.returnedPast y (hret y hy)).1
  exact Prod.ext (h.call_unique hx' hy' htid hns) hr

end World.Settled

/-! ## The leaves of a capture -/

section Capture

variable {request : CaptureRequest} {resolver : Resolver} {store : StackStore} {names : Map Nat String}
  {now eventsDropped samplesDropped finishNs : Nat} {release : String} {delivered : List Event} {q : Query}

theorem functions_capture : (capture request resolver store names now release eventsDropped samplesDropped delivered
    finishNs).functions = [request.function] := by
  obtain ⟨ks, ss, h⟩ :=
    collected_capture request resolver store now release eventsDropped samplesDropped delivered finishNs
  simp only [capture, replay_eq, h.functions_eq]
  rfl

theorem functionId_capture {inv : Invocation}
    (h : inv ∈ (capture request resolver store names now release eventsDropped samplesDropped delivered
      finishNs).invocations) : inv.functionId = request.function.id := by
  obtain ⟨b, hb, hr⟩ := mem_reports.mp (mem_capture_invocations.mp h)
  obtain ⟨e, -, -, -, rfl⟩ := mem_entriesOf.mp (List.mem_of_mem_head? hb)
  exact hr.functionId

theorem takes_iff {x : Call × Nat} : q.takes x = true ↔ (∀ threads, q.threads = some threads → x.1.tid ∈ threads) ∧
    ∀ t, q.time = some t → t.fromNs ≤ x.1.enterNs ∧ x.1.enterNs < t.toNs := by
  simp only [Query.takes, TimeRange.containsStart, Bool.and_eq_true, Option.all_eq_true, decide_eq_true_eq, ge_iff_le]

theorem mem_leaves {x : Call × Nat} : x ∈ w.leaves ↔ x ∈ w.returned ∧ x.1.id.isSome ∧ w.Leaf x.1 x.2 := by
  rw [World.leaves, List.mem_filter, decide_eq_true_eq]

/-- The eligible invocations of the query are the leaves that it takes. -/
theorem spans_capture (h : run (World.step config) {} probes = some w)
    (hres : ∀ p ∈ probes, p.context.reserved = true) (hd : delivered.Perm w.kernel.events)
    (hf : q.functionId = request.function.id) :
    let p := capture request resolver store names now release eventsDropped samplesDropped delivered finishNs
    ((p.invocations.filter q.eligible).map Invocation.span).Perm ((w.leaves.filter q.takes).map spanOf) := by
  intro p
  obtain ⟨own, hl, h1, he, hr⟩ := World.recorded_of_run h hres
  have hset := World.settled_of_run h
  have hids : (p.invocations.map (·.id)).Nodup := invocationIds_capture
  -- the leaf of an eligible invocation
  have hleaf : ∀ i ∈ p.invocations, q.Eligible i → ∃ c, c.id = some i.id ∧ (c, i.endNs) ∈ w.leaves.filter q.takes ∧
      spanOf (c, i.endNs) = i.span := by
    intro i hi hq
    obtain ⟨c, hleaf, hid, hret, htid, hstart⟩ := hl.leaf_of_valid hd hi hq.valid
    refine ⟨c, hid, List.mem_filter.mpr ⟨mem_leaves.mpr ⟨hret, by rw [hid]; rfl, hleaf⟩, takes_iff.mpr ?_⟩, ?_⟩
    · rw [htid, hstart]
      exact ⟨hq.thread, hq.time⟩
    · rw [spanOf, Invocation.span, htid, hstart]
  have hnodup : ((p.invocations.filter q.eligible).map Invocation.span).Nodup := by
    refine (List.nodup_map_iff_inj_on ((List.Nodup.of_map _ hids).filter _)).mpr fun i hi j hj hspan => ?_
    obtain ⟨hi, hqi⟩ := List.mem_filter.mp hi
    obtain ⟨hj, hqj⟩ := List.mem_filter.mp hj
    obtain ⟨c, hci, hc, hcs⟩ := hleaf i hi (eligible_iff.mp hqi)
    obtain ⟨d, hdj, hdm, hds⟩ := hleaf j hj (eligible_iff.mp hqj)
    have hcd : c = d := congrArg Prod.fst (List.inj_on_of_nodup_map (hset.spans_nodup hl.tracked q) hc hdm
      (hcs.trans (hspan.trans hds.symm)))
    subst hcd
    exact List.inj_on_of_nodup_map hids hi hj (Option.some.inj (hci.symm.trans hdj))
  refine (List.perm_ext_iff_of_nodup hnodup (hset.spans_nodup hl.tracked q)).mpr fun span => ?_
  constructor
  · intro hm
    obtain ⟨i, hi, rfl⟩ := List.mem_map.mp hm
    obtain ⟨hi, hq⟩ := List.mem_filter.mp hi
    obtain ⟨c, -, hc, hcs⟩ := hleaf i hi (eligible_iff.mp hq)
    exact List.mem_map.mpr ⟨_, hc, hcs⟩
  · intro hm
    obtain ⟨⟨c, r⟩, hx, rfl⟩ := List.mem_map.mp hm
    obtain ⟨hx, htakes⟩ := List.mem_filter.mp hx
    obtain ⟨hret, hsome, hcleaf⟩ := mem_leaves.mp hx
    obtain ⟨id, hid⟩ := Option.isSome_iff_exists.mp hsome
    obtain ⟨i, hi, rfl, hcomplete, hvalid⟩ := hl.valid_of_leaf h1 he hr hd hret hid hcleaf
    obtain ⟨c', -, hid', hret', htid, hstart⟩ := hl.leaf_of_valid hd hi hvalid
    have hown := hl.tracked.ids c (hl.tracked.returnedPast _ hret).1 _ hid
    have hown' := hl.tracked.ids c' (hl.tracked.returnedPast _ hret').1 _ hid'
    obtain ⟨htc, hnc⟩ := Prod.mk.inj (hown.2.symm.trans hown'.2)
    have hcc : c = c' := hset.call_unique (hl.tracked.returnedPast _ hret).1 (hl.tracked.returnedPast _ hret').1 htc hnc
    subst hcc
    have hend : r = i.endNs := hset.return_unique hret hret'
    obtain ⟨hthread, htime⟩ := takes_iff.mp htakes
    have hq : q.Eligible i := by
      refine ⟨(functionId_capture hi).trans hf.symm, hcomplete, hvalid, ?_, ?_⟩
      · rw [← htid]
        exact hthread
      · rw [← hstart]
        exact htime
    refine List.mem_map.mpr ⟨i, List.mem_filter.mpr ⟨hi, eligible_iff.mpr hq⟩, ?_⟩
    rw [spanOf, Invocation.span, htid, hstart, hend]

/-- The durations that a query sees are the latencies of the leaves that it takes. -/
theorem durations_capture (h : run (World.step config) {} probes = some w)
    (hres : ∀ p ∈ probes, p.context.reserved = true) (hd : delivered.Perm w.kernel.events)
    (hf : q.functionId = request.function.id) :
    (candidates (capture request resolver store names now release eventsDropped samplesDropped delivered finishNs)
      q).map (·.durationNs) = w.latencies q := by
  set p := capture request resolver store names now release eventsDropped samplesDropped delivered finishNs
  have hspans : ((p.invocations.filter q.eligible).map Invocation.span).Perm ((w.leaves.filter q.takes).map spanOf) :=
    spans_capture h hres hd hf
  have hperm := hspans.map fun s => s.2.2 - s.2.1
  simp only [List.map_map] at hperm
  have hsorted : (w.latencies q).Pairwise (· ≤ ·) := sortByKey_sorted id _
  refine List.Perm.eq_of_pairwise (fun _ _ _ _ hab hba => Nat.le_antisymm hab hba)
    candidates_durations_sorted hsorted ?_
  exact ((candidates_perm.map _).trans hperm).trans (sortByKey_perm _ _).symm

theorem startNs_lt_capture (h : run (World.step config) {} probes = some w)
    (hres : ∀ p ∈ probes, p.context.reserved = true) (hd : delivered.Perm w.kernel.events) {inv : Invocation}
    (hinv : inv ∈ (capture request resolver store names now release eventsDropped samplesDropped delivered
      finishNs).invocations) (hv : inv.valid = true) : inv.startNs < inv.endNs := by
  obtain ⟨own, hl, -⟩ := World.recorded_of_run h hres
  obtain ⟨c, -, -, hret, -, hstart⟩ := hl.leaf_of_valid hd hinv hv
  rw [← hstart]
  exact (World.settled_of_run h).later _ hret

end Capture

/-! ## Calls that do not nest -/

/-- A call starts when its thread has no open call, and its map update succeeds. -/
def World.CallsApart (w : World) : Probe → Prop
  | .call ctx => w.callStack ctx.tid = [] ∧ ctx.updated = true
  | .ret _ => True

/-- Every call has an identity, and none starts inside another one. -/
structure World.Apart (w : World) : Prop where
  identified : ∀ c ∈ w.entered, c.id.isSome
  openCalls : ∀ tid, ∀ c ∈ w.callStack tid, ∀ d ∈ w.entered, d.tid = c.tid → d.enterNs ≤ c.enterNs
  returned : ∀ x ∈ w.returned, w.Leaf x.1 x.2

theorem World.Apart.initial : ({} : World).Apart := ⟨by rintro c ⟨⟩, by rintro tid c ⟨⟩, by rintro x ⟨⟩⟩

theorem World.Apart.step (h : w.Apart) (ht : w.Tracked own) (hs : w.Steps config p w') (hp : w.CallsApart p) :
    w'.Apart := by
  cases hs with
  | @call ctx hnow =>
      obtain ⟨hempty, hupdated⟩ := hp
      have hnone : w.kernel.activeByTid.lookup ctx.tid = none := by
        cases ha : w.kernel.activeByTid.lookup ctx.tid with
        | none => rfl
        | some a =>
            obtain ⟨c, hc, -⟩ := ht.activeCall ctx.tid a ha
            rw [hempty] at hc
            cases hc
      refine ⟨?_, ?_, ?_⟩
      · intro c hc
        rcases List.mem_cons.mp hc with rfl | hc
        · rw [callOf_id.mpr ⟨hnone, hupdated, rfl⟩]
          rfl
        · exact h.identified c hc
      · intro tid c hc d hd hdt
        by_cases htid : tid = ctx.tid
        · subst htid
          simp only [World.enter, Function.update_self, hempty, List.mem_singleton] at hc
          subst hc
          rcases List.mem_cons.mp hd with rfl | hd
          · exact le_refl _
          · exact (ht.entered_lt hd hdt hnow).le
        · simp only [World.enter, Function.update_of_ne htid] at hc
          rcases List.mem_cons.mp hd with rfl | hd
          · exact absurd ((ht.stackMem tid c hc).2.symm.trans hdt.symm) htid
          · exact h.openCalls tid c hc d hd hdt
      · intro x hx d hd hdt hlt
        rcases List.mem_cons.mp hd with rfl | hd
        · exact (ht.returned_lt hx hdt.symm hnow).le
        · exact h.returned x hx d hd hdt hlt
  | @ret ctx c rest hnow hstack =>
      refine ⟨h.identified, ?_, ?_⟩
      · intro tid d hd
        by_cases htid : tid = ctx.tid
        · subst htid
          simp only [World.leave, Function.update_self] at hd
          exact h.openCalls _ d (hstack ▸ List.mem_cons_of_mem _ hd)
        · simp only [World.leave, Function.update_of_ne htid] at hd
          exact h.openCalls tid d hd
      · intro x hx
        rcases List.mem_cons.mp hx with rfl | hx
        · intro d hd hdt hlt
          exact absurd (h.openCalls ctx.tid c (hstack ▸ List.mem_cons_self) d hd hdt) hlt.not_ge
        · exact h.returned x hx

theorem World.leaves_of_apart (h : run (World.step config) {} probes = some w)
    (hC : Along (World.step config) World.CallsApart {} probes) : w.leaves = w.returned := by
  obtain ⟨own, ht, hapart⟩ := World.invariant_of_run World.Apart .initial
    (fun _ _ _ _ ht hapart hp hs => hapart.step ht hs hp) hC h
  refine List.filter_eq_self.mpr fun x hx => decide_eq_true ⟨?_, hapart.returned x hx⟩
  exact hapart.identified _ (ht.returnedPast x hx).1

end SliceProfiler
