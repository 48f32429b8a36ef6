import SliceProfiler.Collector.Lemmas.Push

/-!
# The identities of the local path

A stream of events without identities, and the same stream with the identities that the local path uses.
-/

namespace SliceProfiler

open Lib

/-- The event carries no identity. -/
def CollectorEvent.Untagged : CollectorEvent → Prop
  | .entry id _ _ _ | .ret id _ _ _ | .sample id _ => id = none
  | _ => True

instance (e : CollectorEvent) : Decidable e.Untagged :=
  match e with
  | .entry none _ _ _ | .ret none _ _ _ | .sample none _ => isTrue rfl
  | .entry (some _) _ _ _ | .ret (some _) _ _ _ | .sample (some _) _ => isFalse nofun
  | .violation .. | .droppedEvents _ | .droppedSamples _ => isTrue trivial

def CollectorEvent.isEntry : CollectorEvent → Bool
  | .entry .. => true
  | _ => false

/-- The thread and the time of an event. -/
def CollectorEvent.stamp : CollectorEvent → Option (Nat × Nat)
  | .entry _ _ tid timestampNs | .ret _ _ tid timestampNs | .violation tid timestampNs => some (tid, timestampNs)
  | .sample _ s => some (s.tid, s.timestampNs)
  | _ => none

def stampsOf (es : List CollectorEvent) : List (Nat × Nat) := es.filterMap CollectorEvent.stamp

/-- The times of each thread strictly increase. -/
def StampsIncrease (es : List CollectorEvent) : Prop :=
  (stampsOf es).Pairwise fun a b => a.1 = b.1 → a.2 < b.2

instance (es : List CollectorEvent) : Decidable (StampsIncrease es) := by
  unfold StampsIncrease; infer_instance

/-- The event under the identity that the local path uses for it: a new one for an entry, and that of the
active invocation of its thread for a return and a sample. -/
def Correlator.tag (c : Correlator) : CollectorEvent → Option CollectorEvent
  | .entry _ functionId tid timestampNs => some (.entry (some c.nextInvocationId) functionId tid timestampNs)
  | .ret _ functionId tid timestampNs =>
      (c.active.lookup tid).map fun active => .ret (some active.id) functionId tid timestampNs
  | .sample _ s => (c.active.lookup s.tid).map fun active => .sample (some active.id) s
  | e => some e

/-- The stream with the identities of its local run. -/
def tagAll (s : Correlator × Profile) : List CollectorEvent → List CollectorEvent
  | [] => []
  | e :: es => (s.1.tag e).toList ++ tagAll (s.1.push s.2 e) es

variable {s : Correlator × Profile} {es : List CollectorEvent} {e : CollectorEvent}

theorem pushAll_append {es' : List CollectorEvent} : pushAll s (es ++ es') = pushAll (pushAll s es) es' :=
  List.foldl_append

theorem pushAll_concat : pushAll s (es ++ [e]) = (pushAll s es).1.push (pushAll s es).2 e := pushAll_append

theorem tagAll_append {es' : List CollectorEvent} :
    tagAll s (es ++ es') = tagAll s es ++ tagAll (pushAll s es) es' := by
  induction es generalizing s with
  | nil => rfl
  | cons e es ih =>
      rw [List.cons_append, tagAll, ih, tagAll, List.append_assoc]
      rfl

theorem tagAll_concat : tagAll s (es ++ [e]) = tagAll s es ++ ((pushAll s es).1.tag e).toList := by
  rw [tagAll_append, tagAll, tagAll, List.append_nil]

theorem stampsOf_concat : stampsOf (es ++ [e]) = stampsOf es ++ e.stamp.toList := by
  cases h : e.stamp <;> simp [stampsOf, List.filterMap_append, h]

/-- The event is later than all events on its thread. -/
def Later (es : List CollectorEvent) (e : CollectorEvent) : Prop :=
  ∀ a ∈ stampsOf es, ∀ b, e.stamp = some b → a.1 = b.1 → a.2 < b.2

theorem StampsIncrease.concat (h : StampsIncrease (es ++ [e])) : StampsIncrease es ∧ Later es e := by
  rw [StampsIncrease, stampsOf_concat, List.pairwise_append] at h
  exact ⟨h.1, fun a ha b hb => h.2.2 a ha b (by simp [hb])⟩

end SliceProfiler
