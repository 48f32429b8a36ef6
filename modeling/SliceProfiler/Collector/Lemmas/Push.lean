import SliceProfiler.Collector.Lemmas.Source

/-!
# Pushing events that carry an identity

Such events never touch the table of active invocations. The records of two identities do not
influence each other.
-/

namespace SliceProfiler

open Lib

/-- The event carries an identity, or is of a kind that has none. -/
def CollectorEvent.Tagged : CollectorEvent → Prop
  | .entry id _ _ _ | .ret id _ _ _ | .sample id _ => id.isSome
  | _ => True

instance (e : CollectorEvent) : Decidable e.Tagged := by
  cases e <;> unfold CollectorEvent.Tagged <;> infer_instance

/-- The counters that an event moves when no invocation is active. -/
def CollectorEvent.tally (q : CaptureQuality) : CollectorEvent → CaptureQuality
  | .entry .. | .ret .. => q.generateEvent
  | .violation .. => q.generateEvent.mismatch
  | .sample .. => q.generateSample
  | .droppedEvents count => q.dropEvents count
  | .droppedSamples count => q.dropSamples count

/-- The correlator after an event with an identity. -/
def Correlator.collect (c : Correlator) : CollectorEvent → Correlator
  | .entry (some id) functionId tid timestampNs => c.sourceEntry id functionId tid timestampNs
  | .ret (some id) functionId tid timestampNs => c.sourceReturn id functionId tid timestampNs
  | .sample (some id) s => c.sourceSample id s
  | .violation tid timestampNs => { c with sourceViolations := c.sourceViolations ++ [(tid, timestampNs)] }
  | _ => c

variable {c : Correlator} {e : CollectorEvent} {es : List CollectorEvent}

theorem collect_active : (c.collect e).active = c.active := by
  cases e with
  | entry id | ret id | sample id => cases id <;> rfl
  | violation | droppedEvents | droppedSamples => rfl

theorem push_of_tagged (he : e.Tagged) (hc : c.active = ∅) (p : Profile) :
    c.push p e = (c.collect e, p.count fun q => e.tally q) := by
  cases e with
  | entry id | ret id | sample id =>
      cases id with
      | none => cases he
      | some id => rfl
  | violation tid t =>
      have hl : c.active.lookup tid = none := by rw [hc]; rfl
      simp only [Correlator.push, Correlator.violation, hl]
      rfl
  | droppedEvents | droppedSamples => rfl

theorem pushAll_of_tagged (he : ∀ e ∈ es, e.Tagged) (hc : c.active = ∅) (p : Profile) :
    pushAll (c, p) es = (es.foldl Correlator.collect c, p.count fun q => es.foldl CollectorEvent.tally q) := by
  induction es generalizing c p with
  | nil => rfl
  | cons e es ih =>
      have hes : ∀ e ∈ es, e.Tagged := fun e' h => he e' (List.mem_cons_of_mem _ h)
      rw [pushAll, List.foldl_cons, push_of_tagged (he e List.mem_cons_self) hc]
      exact ih hes (collect_active.trans hc) _

/-! ## The state after the events -/

theorem lookup_collect (i : Nat) : (c.collect e).sourceInvocations.lookup i =
    assemble i (c.sourceInvocations.lookup i) e := by
  cases e with
  | entry id f tid t =>
      cases id with
      | none => rfl
      | some id =>
          simp only [Correlator.collect, Correlator.sourceEntry, Map.lookup_upsert, assemble]
          by_cases h : id = i
          · subst h; simp
          · simp [h, Ne.symm h]
  | ret id f tid t =>
      cases id with
      | none => rfl
      | some id =>
          simp only [Correlator.collect, Correlator.sourceReturn, Map.lookup_upsert, assemble]
          by_cases h : id = i
          · subst h; simp
          · simp [h, Ne.symm h]
  | sample id s =>
      cases id with
      | none => rfl
      | some id =>
          simp only [Correlator.collect, Correlator.sourceSample, Map.lookup_upsert, assemble]
          by_cases h : id = i
          · subst h; simp
          · simp [h, Ne.symm h]
  | violation | droppedEvents | droppedSamples => rfl

theorem lookup_collectAll (i : Nat) (es : List CollectorEvent) :
    (es.foldl Correlator.collect {}).sourceInvocations.lookup i = recordOf i es := by
  induction es using List.reverseRecOn with
  | nil => rfl
  | append_singleton es e ih => rw [List.foldl_concat, lookup_collect, ih, recordOf_concat]

theorem collectAll_violations (es : List CollectorEvent) :
    (es.foldl Correlator.collect {}).sourceViolations = violationsOf es := by
  induction es using List.reverseRecOn with
  | nil => rfl
  | append_singleton es e ih =>
      rw [List.foldl_concat, violationsOf, List.filterMap_append, ← violationsOf, ← ih]
      cases e with
      | entry id | ret id | sample id => cases id <;> exact (List.append_nil _).symm
      | violation tid t => rfl
      | droppedEvents | droppedSamples => exact (List.append_nil _).symm

/-- What the events leave alone, and when the source mode is on. -/
structure Collecting (c : Correlator) : Prop where
  active : c.active = ∅
  stackIds : c.stackIds = ∅
  nextStackId : c.nextStackId = 1
  sourceMode : c.sourceMode = false → c.sourceInvocations = ∅

theorem Collecting.initial : Collecting {} := ⟨rfl, rfl, rfl, fun _ => rfl⟩

theorem Collecting.collect (h : Collecting c) : Collecting (c.collect e) := by
  cases e with
  | entry id | ret id | sample id =>
      cases id with
      | none => exact h
      | some id => exact ⟨h.active, h.stackIds, h.nextStackId, fun hm => Bool.noConfusion hm⟩
  | violation tid t => exact ⟨h.active, h.stackIds, h.nextStackId, h.sourceMode⟩
  | droppedEvents | droppedSamples => exact h

theorem collecting_collectAll (h : Collecting c) (es : List CollectorEvent) :
    Collecting (es.foldl Correlator.collect c) := by
  induction es generalizing c with
  | nil => exact h
  | cons e es ih => exact ih h.collect

end SliceProfiler
