import SliceProfiler.Collector.Lemmas.LocalFinish
import SliceProfiler.Collector.Lemmas.Overflow

/-!
# Valid invocations of one thread

On the local path a thread has one active invocation at most, so its valid invocations follow one another. Two
identities are assembled apart, and both can be retained when the interval of one begins inside that of the other.
-/

namespace SliceProfiler

open Lib

/-- The times of each thread do not decrease. -/
def StampsOrdered (es : List CollectorEvent) : Prop :=
  (stampsOf es).Pairwise fun a b => a.1 = b.1 → a.2 ≤ b.2

instance (es : List CollectorEvent) : Decidable (StampsOrdered es) := by
  unfold StampsOrdered; infer_instance

/-- The intervals have more than a point in common. -/
def Invocation.Overlaps (a b : Invocation) : Prop := max a.startNs b.startNs < min a.endNs b.endNs

variable {es : List CollectorEvent} {e : CollectorEvent} {active : Map Nat ActiveInvocation}
  {invocations : List Invocation} {inv : Invocation} {tid ts : Nat}

theorem StampsOrdered.concat (h : StampsOrdered (es ++ [e])) :
    StampsOrdered es ∧ ∀ a ∈ stampsOf es, ∀ b, e.stamp = some b → a.1 = b.1 → a.2 ≤ b.2 := by
  rw [StampsOrdered, stampsOf_concat, List.pairwise_append] at h
  exact ⟨h.1, fun a ha b hb => h.2.2 a ha b (by simp [hb])⟩

/-! ## The local path -/

/-- The valid invocations of a thread come one after the other, and the active one is behind them. -/
structure InTurn (es : List CollectorEvent) (active : Map Nat ActiveInvocation) (invocations : List Invocation) :
    Prop where
  follow : invocations.Pairwise fun a b => a.Good → b.Good → a.tid = b.tid → a.endNs ≤ b.startNs
  stamped : ∀ inv ∈ invocations, inv.Good → (inv.tid, inv.endNs) ∈ stampsOf es
  behind : ∀ tid a, active.lookup tid = some a → ∀ inv ∈ invocations, inv.Good → inv.tid = tid → inv.endNs ≤ a.startNs

theorem InTurn.initial : InTurn [] ∅ [] where
  follow := .nil
  stamped _ h := by cases h
  behind _ _ h := by cases h

theorem InTurn.concat (h : InTurn es active invocations) : InTurn (es ++ [e]) active invocations :=
  ⟨h.follow, fun inv hi hg => mem_stampsOf_concat (h.stamped inv hi hg), h.behind⟩

/-- An invocation that is not reported as valid does not count. -/
theorem InTurn.closeBad (h : InTurn es active invocations) (hb : ¬ inv.Good) :
    InTurn es active (invocations ++ [inv]) := by
  constructor
  · rw [List.pairwise_append]
    refine ⟨h.follow, List.pairwise_singleton _ _, fun a _ => ?_⟩
    exact List.forall_mem_singleton.mpr fun _ hg => absurd hg hb
  · rw [List.forall_mem_append, List.forall_mem_singleton]
    exact ⟨h.stamped, fun hg => absurd hg hb⟩
  · intro tid a ha
    rw [List.forall_mem_append, List.forall_mem_singleton]
    exact ⟨h.behind tid a ha, fun hg => absurd hg hb⟩

/-- An active invocation begins at the time of an event that is not before the events of its thread. -/
theorem InTurn.begin (h : InTurn es active invocations) {a : ActiveInvocation}
    (hlast : ∀ x ∈ stampsOf es, x.1 = tid → x.2 ≤ a.startNs) : InTurn es (active.insert tid a) invocations := by
  refine ⟨h.follow, h.stamped, fun tid' a' ha' inv hm hg ht => ?_⟩
  rcases of_lookup_insert ha' with ⟨rfl, rfl⟩ | ⟨-, hold⟩
  · exact hlast _ (h.stamped inv hm hg) ht
  · exact h.behind tid' a' hold inv hm hg ht

/-- A change of the active invocation that keeps its start. -/
theorem InTurn.update (h : InTurn es active invocations) {a a' : ActiveInvocation} (ha : active.lookup tid = some a)
    (hs : a'.startNs = a.startNs) : InTurn es (active.insert tid a') invocations := by
  refine ⟨h.follow, h.stamped, fun tid' b hb inv hm hg ht => ?_⟩
  rcases of_lookup_insert hb with ⟨rfl, rfl⟩ | ⟨-, hold⟩
  · rw [hs]
    exact h.behind tid' a ha inv hm hg ht
  · exact h.behind tid' b hold inv hm hg ht

theorem InTurn.close (h : InTurn es active invocations) {a : ActiveInvocation} (ha : active.lookup tid = some a)
    (ht : inv.tid = tid) (hs : inv.startNs = a.startNs) (he : (tid, inv.endNs) ∈ stampsOf es) :
    InTurn es (active.erase tid) (invocations ++ [inv]) := by
  constructor
  · rw [List.pairwise_append]
    refine ⟨h.follow, List.pairwise_singleton _ _, fun b hb => ?_⟩
    rw [List.forall_mem_singleton, hs]
    exact fun hg _ heq => h.behind tid a ha b hb hg (heq.trans ht)
  · rw [List.forall_mem_append, List.forall_mem_singleton, ht]
    exact ⟨h.stamped, fun _ => he⟩
  · intro tid' a' ha'
    obtain ⟨hne, hold⟩ := of_lookup_erase ha'
    rw [List.forall_mem_append, List.forall_mem_singleton, ht]
    exact ⟨h.behind tid' a' hold, fun _ heq => absurd heq.symm hne⟩

variable {c : Correlator} {p : Profile}

theorem mem_stampsOf_stamp {x : Nat × Nat} (h : e.stamp = some x) : x ∈ stampsOf (es ++ [e]) := by
  rw [stampsOf_concat, h]
  exact List.mem_append_right _ (List.mem_singleton.mpr rfl)

theorem InTurn.push (h : InTurn es c.active p.invocations) (he : e.Untagged)
    (hlast : ∀ a ∈ stampsOf es, ∀ b, e.stamp = some b → a.1 = b.1 → a.2 ≤ b.2) :
    InTurn (es ++ [e]) (c.push p e).1.active (c.push p e).2.invocations := by
  have hnew : InTurn (es ++ [e]) c.active p.invocations := h.concat
  cases e with
  | entry id f tid ts =>
      obtain rfl : id = none := he
      have hall : ∀ x ∈ stampsOf (es ++ [.entry none f tid ts]), x.1 = tid → x.2 ≤ ts := by
        intro x hx ht
        rw [stampsOf_concat] at hx
        rcases List.mem_append.mp hx with hx | hx
        · exact hlast x hx (tid, ts) rfl ht
        · rw [List.mem_singleton.mp hx]
      simp only [Correlator.push, Correlator.localEntry]
      cases c.active.lookup tid with
      | none => exact hnew.begin hall
      | some existing => exact (hnew.closeBad fun hg => Bool.noConfusion hg.1).begin hall
  | ret id f tid ts =>
      obtain rfl : id = none := he
      simp only [Correlator.push, Correlator.localReturn]
      cases ha : c.active.lookup tid with
      | none => exact hnew
      | some a => exact hnew.close ha rfl rfl (mem_stampsOf_stamp rfl)
  | violation tid ts =>
      simp only [Correlator.push, Correlator.violation]
      cases ha : c.active.lookup tid with
      | none => exact hnew
      | some a =>
          dsimp only
          split <;> exact hnew.update ha rfl
  | sample id s =>
      obtain rfl : id = none := he
      simp only [Correlator.push, Correlator.localSample]
      cases c.active.lookup s.tid with
      | none => exact hnew
      | some a =>
          dsimp only
          split
          · rw [(appendSample_correlator a.id s).1, (appendSample_book a.id s).1]
            exact hnew
          · exact hnew
  | droppedEvents | droppedSamples => exact hnew

theorem sourceMode_push (he : e.Untagged) : (c.push p e).1.sourceMode = c.sourceMode := by
  cases e with
  | entry id f tid ts =>
      obtain rfl : id = none := he
      rfl
  | ret id f tid ts =>
      obtain rfl : id = none := he
      simp only [Correlator.push, Correlator.localReturn]
      cases c.active.lookup tid <;> rfl
  | violation tid ts =>
      simp only [Correlator.push, Correlator.violation]
      cases c.active.lookup tid <;> rfl
  | sample id s =>
      obtain rfl : id = none := he
      simp only [Correlator.push, Correlator.localSample]
      cases c.active.lookup s.tid with
      | none => rfl
      | some a =>
          dsimp only
          split
          · exact (appendSample_correlator a.id s).2
          · rfl
  | droppedEvents | droppedSamples => rfl

theorem inTurn_pushAll (hi : p.invocations = []) (he : ∀ e ∈ es, e.Untagged) (hs : StampsOrdered es) :
    InTurn es (pushAll ({}, p) es).1.active (pushAll ({}, p) es).2.invocations ∧
      (pushAll ({}, p) es).1.sourceMode = false := by
  induction es using List.reverseRecOn with
  | nil =>
      refine ⟨?_, rfl⟩
      change InTurn [] ∅ p.invocations
      rw [hi]
      exact .initial
  | append_singleton es e ih =>
      obtain ⟨hold, hlast⟩ := hs.concat
      obtain ⟨hturn, hmode⟩ := ih (fun e' h => he e' (List.mem_append_left _ h)) hold
      have hlocal : e.Untagged := he e (List.mem_append_right _ (List.mem_singleton.mpr rfl))
      rw [pushAll_concat]
      exact ⟨hturn.push hlocal hlast, (sourceMode_push hlocal).trans hmode⟩

/-- The invocations that are active at the end do not count. -/
theorem InTurn.finish (h : InTurn es c.active p.invocations) (hm : c.sourceMode = false) (t : Nat) :
    InTurn es c.active (c.finish p t).invocations := by
  rw [Correlator.finish, hm]
  refine List.foldlRecOn _ _ (motive := fun q : Profile => InTurn es c.active q.invocations) h fun q hq a _ => ?_
  exact hq.closeBad fun hg => Bool.noConfusion hg.1

/-- Without identities the valid invocations of a thread do not overlap. -/
theorem collectEvents_inTurn (hi : p.invocations = []) (he : ∀ e ∈ es, e.Untagged) (hs : StampsOrdered es) (t : Nat) :
    (collectEvents p es t).invocations.Pairwise fun a b => a.Good → b.Good → a.tid = b.tid → a.endNs ≤ b.startNs := by
  obtain ⟨hturn, hmode⟩ := inTurn_pushAll hi he hs
  exact (hturn.finish hmode t).follow

/-! ## The identities -/

/-- No two valid invocations of a thread overlap. -/
def Profile.NoOverlap (p : Profile) : Prop :=
  p.invocations.Pairwise fun a b => a.Good → b.Good → a.tid = b.tid → ¬ a.Overlaps b

theorem Invocation.overlaps_comm {a b : Invocation} : a.Overlaps b ↔ b.Overlaps a := by
  rw [Overlaps, Overlaps, Nat.max_comm, Nat.min_comm]

variable {i j : Nat} {e r e' r' : Boundary}

/-- The interval of `j` begins inside that of `i` on the same thread, and both are retained. -/
structure Nested (es : List CollectorEvent) (i j : Nat) (e r e' r' : Boundary) : Prop where
  apart : i ≠ j
  outer : Retained i es e r
  inner : Retained j es e' r'
  sameTid : e.tid = e'.tid
  inside : e.timestampNs ≤ e'.timestampNs
  running : e'.timestampNs < r.timestampNs
  lasting : e'.timestampNs < r'.timestampNs

/-- Of two overlapping reports one begins inside the other. -/
theorem nested_of_overlaps {t : Nat} {a b : Invocation} (ha : a ∈ reports es t) (hb : b ∈ reports es t)
    (hid : a.id ≠ b.id) (hga : a.Good) (hgb : b.Good) (ht : a.tid = b.tid) (ho : a.Overlaps b) :
    ∃ i j e r e' r', Nested es i j e r e' r' := by
  obtain ⟨e, r, hr, htid, hstart, hend⟩ := bounds_of_good ha hga
  obtain ⟨e', r', hr', htid', hstart', hend'⟩ := bounds_of_good hb hgb
  have hsame : e.tid = e'.tid := by rw [← htid, ← htid', ht]
  rw [Invocation.Overlaps, hstart, hstart', hend, hend', Nat.max_lt, Nat.lt_min, Nat.lt_min] at ho
  rcases Nat.le_total e.timestampNs e'.timestampNs with hle | hle
  · exact ⟨a.id, b.id, e, r, e', r', hid, hr, hr', hsame, hle, ho.2.1, ho.2.2⟩
  · exact ⟨b.id, a.id, e', r', e, r, hid.symm, hr', hr, hsame.symm, hle, ho.1.2, ho.1.1⟩

theorem Nested.overlaps {t : Nat} (h : Nested es i j e r e' r') : ∃ a ∈ reports es t, ∃ b ∈ reports es t,
    a ≠ b ∧ a.Good ∧ b.Good ∧ a.tid = b.tid ∧ a.Overlaps b := by
  obtain ⟨a, ha, hga, hid, htid, hstart, hend⟩ := h.outer.report (t := t)
  obtain ⟨b, hb, hgb, hid', htid', hstart', hend'⟩ := h.inner.report (t := t)
  refine ⟨a, ha, b, hb, ?_, hga, hgb, ?_, ?_⟩
  · rintro rfl
    exact h.apart (hid.symm.trans hid')
  · rw [htid, htid', h.sameTid]
  · rw [Invocation.Overlaps, hstart, hstart', hend, hend', Nat.max_lt, Nat.lt_min, Nat.lt_min]
    exact ⟨⟨h.inside.trans_lt h.running, h.inside.trans_lt h.lasting⟩, h.running, h.lasting⟩

theorem noOverlap_reports {t : Nat} (hp : p.invocations = reports es t) :
    p.NoOverlap ↔ ∀ i j e r e' r', ¬ Nested es i j e r e' r' := by
  rw [Profile.NoOverlap, hp]
  constructor
  · intro h i j e r e' r' hn
    obtain ⟨a, ha, b, hb, hne, hga, hgb, ht, ho⟩ := hn.overlaps (t := t)
    have : Std.Symm fun a b : Invocation => a.Good → b.Good → a.tid = b.tid → ¬ a.Overlaps b :=
      ⟨fun a b hab hgb hga ht ho => hab hga hgb ht.symm (Invocation.overlaps_comm.mp ho)⟩
    exact h.forall ha hb hne hga hgb ht ho
  · intro h
    refine (reports_strict es t).imp_of_mem fun {a b} ha hb hlt hga hgb ht ho => ?_
    obtain ⟨i, j, e, r, e', r', hn⟩ := nested_of_overlaps ha hb hlt.ne hga hgb ht ho
    exact h i j e r e' r' hn

theorem entriesOf_of_untagged (he : ∀ e ∈ es, e.Untagged) : entriesOf i es = [] := by
  refine List.filterMap_eq_nil_iff.mpr fun e hm => ?_
  have hu := he e hm
  cases e with
  | entry id => obtain rfl : id = none := hu; rfl
  | ret | violation | sample | droppedEvents | droppedSamples => rfl

end SliceProfiler
