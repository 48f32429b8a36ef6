import SliceProfiler.Collector.Local

/-!
# The local path and the records of the tagged stream

Every invocation that the local path knows has a record in the tagged stream, and every record belongs to
one invocation of the local path, active or closed.
-/

namespace SliceProfiler

open Lib

variable {es ts l : List CollectorEvent} {e : CollectorEvent} {tid i : Nat} {a : ActiveInvocation}
  {inv : Invocation}

/-- The record of a call without a return. -/
def openRecord (id functionId tid startNs : Nat) (samples : List PendingSample) : SourceInvocation :=
  ⟨id, some functionId, tid, some startNs, none, true, false, true, samples⟩

/-- The record of a call with a return. -/
def returnedRecord (id functionId tid startNs endNs : Nat) (valid : Bool) (samples : List PendingSample) :
    SourceInvocation :=
  ⟨id, some functionId, tid, some startNs, some endNs, true, true, valid, samples⟩

/-- The active invocation of the thread, in the tagged stream. -/
structure ActiveInvocation.Tracked (a : ActiveInvocation) (tid : Nat) (es ts : List CollectorEvent) : Prop where
  thread : a.tid = tid
  record : recordOf a.id ts = some (openRecord a.id a.functionId tid a.startNs (samplesOf a.id ts))
  start : (tid, a.startNs) ∈ stampsOf es
  samples : ∀ s ∈ samplesOf a.id ts, a.startNs ≤ s.timestampNs ∧ (tid, s.timestampNs) ∈ stampsOf es
  valid : a.valid = true ↔ ∀ v ∈ violationsOf es, v.1 = tid → v.2 < a.startNs

/-- An invocation that was still active when the next one on its thread began. -/
structure Invocation.Superseded (inv : Invocation) (ts : List CollectorEvent) : Prop where
  complete : inv.complete = false
  valid : inv.valid = false
  record : recordOf inv.id ts =
    some (openRecord inv.id inv.functionId inv.tid inv.startNs (samplesOf inv.id ts))

structure Invocation.Returned (inv : Invocation) (es ts : List CollectorEvent) : Prop where
  complete : inv.complete = true
  parent : inv.parentId = none
  bounds : inv.startNs ≤ inv.endNs
  stop : (inv.tid, inv.endNs) ∈ stampsOf es
  samples : ∀ s ∈ samplesOf inv.id ts, inv.startNs ≤ s.timestampNs ∧ s.timestampNs ≤ inv.endNs
  record : ∃ valid, recordOf inv.id ts = some (returnedRecord inv.id inv.functionId inv.tid inv.startNs
      inv.endNs valid (samplesOf inv.id ts)) ∧
    (inv.valid = true ↔ valid = true ∧
      ∀ v ∈ violationsOf es, ¬ (v.1 = inv.tid ∧ inv.startNs ≤ v.2 ∧ v.2 ≤ inv.endNs))

/-! ## Events of other identities -/

theorem record_append (ts : List CollectorEvent) (h : ∀ e ∈ l, e.invocationId ≠ some i) :
    recordOf i (ts ++ l) = recordOf i ts ∧ samplesOf i (ts ++ l) = samplesOf i ts := by
  induction l generalizing ts with
  | nil => simp
  | cons e l ih =>
      obtain ⟨hr, hs⟩ := ih (ts ++ [e]) fun e' he' => h e' (List.mem_cons_of_mem _ he')
      have he := h e List.mem_cons_self
      rw [List.append_cons, hr, hs, recordOf_concat, assemble_of_ne he, samplesOf_concat,
        (tidOf_eq_none.mp (tidOf_of_ne he)).2.2]
      exact ⟨rfl, List.append_nil _⟩

theorem stamp_of_violationAt {v : Nat × Nat} (h : e.violationAt = some v) : e.stamp = some v := by
  cases e with
  | violation tid t => exact h
  | entry | ret | sample | droppedEvents | droppedSamples => cases h

theorem mem_stampsOf_concat {x : Nat × Nat} (h : x ∈ stampsOf es) : x ∈ stampsOf (es ++ [e]) := by
  rw [stampsOf_concat]; exact List.mem_append_left _ h

theorem forall_violationsOf_concat {P : Nat × Nat → Prop} : (∀ v ∈ violationsOf (es ++ [e]), P v) ↔
    (∀ v ∈ violationsOf es, P v) ∧ ∀ v, e.violationAt = some v → P v := by
  rw [violationsOf_concat]
  simp [or_imp, forall_and]

theorem ActiveInvocation.Tracked.keep (h : a.Tracked tid es ts) (hl : ∀ e ∈ l, e.invocationId ≠ some a.id)
    (hv : ∀ v, e.violationAt = some v → v.1 ≠ tid) : a.Tracked tid (es ++ [e]) (ts ++ l) := by
  obtain ⟨hr, hs⟩ := record_append ts hl
  refine ⟨h.thread, by rw [hr, hs, h.record], mem_stampsOf_concat h.start, ?_, ?_⟩
  · intro s hm
    rw [hs] at hm
    exact ⟨(h.samples s hm).1, mem_stampsOf_concat (h.samples s hm).2⟩
  · rw [forall_violationsOf_concat, h.valid]
    exact ⟨fun hold => ⟨hold, fun v he ht => absurd ht (hv v he)⟩, fun hnew => hnew.1⟩

theorem Invocation.Superseded.keep (h : inv.Superseded ts) (hl : ∀ e ∈ l, e.invocationId ≠ some inv.id) :
    inv.Superseded (ts ++ l) := by
  obtain ⟨hr, hs⟩ := record_append ts hl
  exact ⟨h.complete, h.valid, by rw [hr, hs, h.record]⟩

/-- A later violation does not reach an invocation that has returned. -/
theorem Invocation.Returned.keep (h : inv.Returned es ts) (hl : ∀ e ∈ l, e.invocationId ≠ some inv.id)
    (hlater : Later es e) : inv.Returned (es ++ [e]) (ts ++ l) := by
  obtain ⟨hr, hs⟩ := record_append ts hl
  obtain ⟨valid, hrec, hv⟩ := h.record
  refine ⟨h.complete, h.parent, h.bounds, mem_stampsOf_concat h.stop, by rw [hs]; exact h.samples, valid,
    by rw [hr, hs, hrec], ?_⟩
  rw [forall_violationsOf_concat, hv]
  have hout : ∀ v, e.violationAt = some v → ¬ (v.1 = inv.tid ∧ inv.startNs ≤ v.2 ∧ v.2 ≤ inv.endNs) := by
    rintro v he ⟨ht, -, hle⟩
    exact absurd hle (hlater _ h.stop v (stamp_of_violationAt he) ht.symm).not_ge
  exact ⟨fun hold => ⟨hold.1, hold.2, hout⟩, fun hnew => ⟨hnew.1, hnew.2.1⟩⟩

/-! ## The simulation -/

/-- The active and the closed invocations of the local path stand for the records of the tagged stream. -/
structure Tracks (es ts : List CollectorEvent) (next : Nat) (active : Map Nat ActiveInvocation)
    (invocations : List Invocation) : Prop where
  counted : next = min (es.countP CollectorEvent.isEntry + 1) u64Max
  fresh : ∀ i, es.countP CollectorEvent.isEntry < i → recordOf i ts = none
  tracked : ∀ tid a, active.lookup tid = some a → a.Tracked tid es ts
  closed : ∀ inv ∈ invocations, inv.Superseded ts ∨ inv.Returned es ts
  onto : ∀ i r, recordOf i ts = some r →
    (∃ tid a, active.lookup tid = some a ∧ a.id = i) ∨ ∃ inv ∈ invocations, inv.id = i
  apart : ∀ tid a tid' a', active.lookup tid = some a → active.lookup tid' = some a' → a.id = a'.id → tid = tid'
  disjoint : ∀ tid a, active.lookup tid = some a → ∀ inv ∈ invocations, inv.id ≠ a.id
  nodup : (invocations.map (·.id)).Nodup
  violations : violationsOf ts = violationsOf es
  tagged : ∀ e ∈ ts, e.Tagged

variable {next : Nat} {active : Map Nat ActiveInvocation} {invocations : List Invocation}

theorem Tracks.initial : Tracks [] [] 1 ∅ [] where
  counted := rfl
  fresh _ _ := rfl
  tracked _ _ h := by cases h
  closed _ h := by cases h
  onto _ _ h := by cases h
  apart _ _ _ _ h := by cases h
  disjoint _ _ h := by cases h
  nodup := List.nodup_nil
  violations := rfl
  tagged _ h := by cases h

theorem Tracks.closed_record (h : Tracks es ts next active invocations) (hi : inv ∈ invocations) :
    ∃ r, recordOf inv.id ts = some r := by
  rcases h.closed inv hi with hs | hr
  · exact ⟨_, hs.record⟩
  · obtain ⟨_, hrec, -⟩ := hr.record
    exact ⟨_, hrec⟩

theorem closed_keep (h : inv.Superseded ts ∨ inv.Returned es ts) (hl : ∀ e ∈ l, e.invocationId ≠ some inv.id)
    (hlater : Later es e) : inv.Superseded (ts ++ l) ∨ inv.Returned (es ++ [e]) (ts ++ l) :=
  h.imp (·.keep hl) (·.keep hl hlater)

/-- An event that no invocation of the local path takes part in. -/
theorem Tracks.skip (h : Tracks es ts next active invocations) (hentry : e.isEntry = false)
    (hlater : Later es e) (hl : ∀ e ∈ l, e.invocationId = none ∧ e.Tagged)
    (hviol : violationsOf l = e.violationAt.toList)
    (hidle : ∀ v, e.violationAt = some v → active.lookup v.1 = none) :
    Tracks (es ++ [e]) (ts ++ l) next active invocations := by
  have hne : ∀ i, ∀ e ∈ l, e.invocationId ≠ some i := by
    intro i e he
    rw [(hl e he).1]
    exact fun hc => by cases hc
  have hcount : (es ++ [e]).countP CollectorEvent.isEntry = es.countP CollectorEvent.isEntry := by
    simp [List.countP_append, hentry]
  refine ⟨by rw [hcount, h.counted], ?_, ?_, ?_, ?_, h.apart, h.disjoint, h.nodup, ?_, ?_⟩
  · intro i hi
    rw [hcount] at hi
    rw [(record_append ts (hne i)).1, h.fresh i hi]
  · intro tid a ha
    refine (h.tracked tid a ha).keep (hne a.id) ?_
    rintro v hv rfl
    rw [hidle v hv] at ha
    cases ha
  · exact fun inv hi => closed_keep (h.closed inv hi) (hne inv.id) hlater
  · intro i r hr
    rw [(record_append ts (hne i)).1] at hr
    exact h.onto i r hr
  · rw [violationsOf_concat, ← h.violations, ← hviol, violationsOf, List.filterMap_append]
    rfl
  · intro e he
    rcases List.mem_append.mp he with he | he
    · exact h.tagged e he
    · exact (hl e he).2

/-! ## Entries -/

theorem samplesOf_of_fresh (h : recordOf i ts = none) : samplesOf i ts = [] := by
  rcases recordOf_spec i ts with ⟨-, hn⟩ | ⟨r, hr, -⟩
  · exact (eq_nil_of_carriedTid hn).2.2.1
  · rw [h] at hr
    cases hr

theorem mem_stampsOf_of_violation {v : Nat × Nat} (h : v ∈ violationsOf es) : v ∈ stampsOf es := by
  obtain ⟨e, he, hv⟩ := List.mem_filterMap.mp h
  exact List.mem_filterMap.mpr ⟨e, he, stamp_of_violationAt hv⟩

/-- The invocation that an entry on its thread closes. -/
def supersededBy (tid timestampNs : Nat) (existing : ActiveInvocation) : Invocation :=
  ⟨existing.id, existing.functionId, none, tid, existing.startNs, max timestampNs existing.startNs, false, false⟩

theorem Tracks.entry {f t : Nat} (h : Tracks es ts next active invocations)
    (hbound : es.countP CollectorEvent.isEntry < u64Max) (hlater : Later es (.entry none f tid t)) :
    Tracks (es ++ [.entry none f tid t]) (ts ++ [.entry (some next) f tid t]) (satAdd64 next 1)
      (active.insert tid ⟨next, f, tid, t, true⟩)
      (invocations ++ ((active.lookup tid).map (supersededBy tid t)).toList) := by
  have hnext : next = es.countP CollectorEvent.isEntry + 1 := by
    rw [h.counted]; exact Nat.min_eq_left hbound
  have hfresh : recordOf next ts = none := h.fresh next (by omega)
  have hold : ∀ i r, recordOf i ts = some r → i ≠ next := by
    rintro i r hr rfl
    rw [hfresh] at hr
    cases hr
  have hkeep : ∀ i r, recordOf i ts = some r →
      ∀ e ∈ [CollectorEvent.entry (some next) f tid t], e.invocationId ≠ some i := by
    intro i r hr e he
    rw [List.mem_singleton.mp he]
    exact fun hc => hold i r hr (Option.some.inj hc).symm
  have hnew : recordOf next (ts ++ [.entry (some next) f tid t]) = some (openRecord next f tid t []) := by
    simp [recordOf_concat, assemble, hfresh, SourceInvocation.onEntry, openRecord]
  have hsamples : samplesOf next (ts ++ [.entry (some next) f tid t]) = [] := by
    rw [samplesOf_concat, samplesOf_of_fresh hfresh]
    rfl
  have htracked : ∀ tid' a, (active.insert tid ⟨next, f, tid, t, true⟩).lookup tid' = some a →
      (tid' = tid ∧ a = ⟨next, f, tid, t, true⟩) ∨ (tid' ≠ tid ∧ active.lookup tid' = some a) :=
    fun _ _ ha => of_lookup_insert ha
  have hclosed : ∀ inv ∈ invocations ++ ((active.lookup tid).map (supersededBy tid t)).toList,
      inv ∈ invocations ∨ ∃ a, active.lookup tid = some a ∧ inv = supersededBy tid t a := by
    intro inv hi
    rcases List.mem_append.mp hi with hi | hi
    · exact .inl hi
    · rw [Option.mem_toList, Option.map_eq_some_iff] at hi
      obtain ⟨a, ha, rfl⟩ := hi
      exact .inr ⟨a, ha, rfl⟩
  constructor
  · rw [hnext]
    simp only [List.countP_append, List.countP_singleton, CollectorEvent.isEntry, ↓reduceIte]
    rfl
  · intro i hi
    simp only [List.countP_append, List.countP_singleton, CollectorEvent.isEntry, ↓reduceIte] at hi
    rw [recordOf_concat, h.fresh i (by omega)]
    exact if_neg (by omega)
  · intro tid' a ha
    rcases htracked tid' a ha with ⟨rfl, rfl⟩ | ⟨hne, ha⟩
    · refine ⟨rfl, by rw [hnew, hsamples], by simp [stampsOf_concat, CollectorEvent.stamp], by simp [hsamples], ?_⟩
      simp only [true_iff, forall_violationsOf_concat]
      refine ⟨fun v hv ht => hlater v (mem_stampsOf_of_violation hv) (tid', t) rfl ht, fun v hv => by cases hv⟩
    · have hrec := (h.tracked tid' a ha).record
      exact (h.tracked tid' a ha).keep (hkeep a.id _ hrec) (fun v hv => by cases hv)
  · intro inv hi
    rcases hclosed inv hi with hi | ⟨a, ha, rfl⟩
    · obtain ⟨r, hrec⟩ := h.closed_record hi
      exact closed_keep (h.closed inv hi) (hkeep inv.id r hrec) hlater
    · have ha := h.tracked tid a ha
      exact .inl (Invocation.Superseded.keep ⟨rfl, rfl, ha.record⟩ (hkeep a.id _ ha.record))
  · intro i r hr
    by_cases hi : i = next
    · exact .inl ⟨tid, _, AList.lookup_insert _, hi.symm⟩
    · have hne : CollectorEvent.invocationId (.entry (some next) f tid t) ≠ some i :=
        fun hc => hi (Option.some.inj hc).symm
      rw [recordOf_concat, assemble_of_ne hne] at hr
      rcases h.onto i r hr with ⟨tid', a, ha, rfl⟩ | ⟨inv, hinv, rfl⟩
      · by_cases ht : tid' = tid
        · subst ht
          exact .inr ⟨supersededBy tid' t a, by simp [ha], rfl⟩
        · exact .inl ⟨tid', a, by rw [AList.lookup_insert_ne ht, ha], rfl⟩
      · exact .inr ⟨inv, List.mem_append_left _ hinv, rfl⟩
  · intro tid₁ a₁ tid₂ a₂ h₁ h₂ hid
    rcases htracked tid₁ a₁ h₁ with ⟨ht₁, rfl⟩ | ⟨hne₁, h₁⟩ <;>
      rcases htracked tid₂ a₂ h₂ with ⟨ht₂, rfl⟩ | ⟨hne₂, h₂⟩
    · rw [ht₁, ht₂]
    · exact absurd hid.symm (hold _ _ (h.tracked tid₂ a₂ h₂).record)
    · exact absurd hid (hold _ _ (h.tracked tid₁ a₁ h₁).record)
    · exact h.apart tid₁ a₁ tid₂ a₂ h₁ h₂ hid
  · intro tid' a ha inv hi
    rcases htracked tid' a ha with ⟨rfl, rfl⟩ | ⟨hne, ha⟩
    · rcases hclosed inv hi with hi | ⟨b, hb, rfl⟩
      · obtain ⟨r, hrec⟩ := h.closed_record hi
        exact hold _ r hrec
      · exact hold _ _ (h.tracked _ b hb).record
    · rcases hclosed inv hi with hi | ⟨b, hb, rfl⟩
      · exact h.disjoint tid' a ha inv hi
      · exact fun hid => hne (h.apart tid b tid' a hb ha hid).symm
  · rw [List.map_append, List.nodup_append]
    refine ⟨h.nodup, ?_, ?_⟩
    · cases active.lookup tid <;> simp
    · intro id hid id' hid'
      obtain ⟨inv, hi, rfl⟩ := List.mem_map.mp hid
      obtain ⟨inv', hi', rfl⟩ := List.mem_map.mp hid'
      rw [Option.mem_toList, Option.map_eq_some_iff] at hi'
      obtain ⟨a, ha, rfl⟩ := hi'
      exact h.disjoint tid a ha inv hi
  · simp [violationsOf_concat, h.violations, CollectorEvent.violationAt]
  · intro e he
    rcases List.mem_append.mp he with he | he
    · exact h.tagged e he
    · rw [List.mem_singleton.mp he]
      rfl

/-! ## Events of an active invocation -/

/-- What an event may do to the active invocation of its thread: it stays active, or it returns. -/
inductive Touched (es ts : List CollectorEvent) (tid id : Nat) (active : Map Nat ActiveInvocation)
    (invocations : List Invocation) : Map Nat ActiveInvocation → List Invocation → Prop where
  | stays (active' : Map Nat ActiveInvocation) (a : ActiveInvocation)
      (others : ∀ tid', tid' ≠ tid → active'.lookup tid' = active.lookup tid')
      (lookup : active'.lookup tid = some a) (same : a.id = id) (tracked : a.Tracked tid es ts) :
      Touched es ts tid id active invocations active' invocations
  | returns (inv : Invocation) (same : inv.id = id) (returned : inv.Returned es ts) :
      Touched es ts tid id active invocations (active.erase tid) (invocations ++ [inv])

/-- The event `e'` of the tagged stream is that of `e`, for the invocation `id` on the thread `tid`. -/
structure TouchEvent (tid id : Nat) (es : List CollectorEvent) (e e' : CollectorEvent) : Prop where
  later : Later es e
  entry : e.isEntry = false
  only : ∀ i, e'.invocationId = some i → i = id
  violation : e'.violationAt = e.violationAt
  onThread : ∀ v, e.violationAt = some v → v.1 = tid
  tagged : e'.Tagged

variable {e' : CollectorEvent} {active' : Map Nat ActiveInvocation} {invocations' : List Invocation}

theorem Touched.lookup (ht : Touched es ts tid i active invocations active' invocations') {tid' : Nat}
    {b : ActiveInvocation} (hb : active'.lookup tid' = some b) :
    (tid' = tid ∧ b.id = i ∧ b.Tracked tid es ts ∧ invocations' = invocations) ∨
      (tid' ≠ tid ∧ active.lookup tid' = some b) := by
  cases ht with
  | stays active' a others lookup same tracked =>
      by_cases hne : tid' = tid
      · rw [hne, lookup] at hb
        cases hb
        exact .inl ⟨hne, same, tracked, rfl⟩
      · exact .inr ⟨hne, (others tid' hne) ▸ hb⟩
  | returns inv same returned =>
      exact .inr (of_lookup_erase hb)

theorem Touched.mem (ht : Touched es ts tid i active invocations active' invocations')
    (hi : inv ∈ invocations') : inv ∈ invocations ∨ inv.id = i ∧ inv.Returned es ts ∧ active' = active.erase tid := by
  cases ht with
  | stays active' a others lookup same tracked => exact .inl hi
  | returns inv' same returned =>
      rcases List.mem_append.mp hi with hi | hi
      · exact .inl hi
      · rw [List.mem_singleton.mp hi]
        exact .inr ⟨same, returned, rfl⟩

theorem Touched.mem_of_mem (ht : Touched es ts tid i active invocations active' invocations')
    (hi : inv ∈ invocations) : inv ∈ invocations' := by
  cases ht with
  | stays active' a others lookup same tracked => exact hi
  | returns inv' same returned => exact List.mem_append_left _ hi

theorem Touched.known (ht : Touched es ts tid i active invocations active' invocations') :
    (∃ tid a, active'.lookup tid = some a ∧ a.id = i) ∨ ∃ inv ∈ invocations', inv.id = i := by
  cases ht with
  | stays active' a others lookup same tracked => exact .inl ⟨tid, a, lookup, same⟩
  | returns inv same returned => exact .inr ⟨inv, by simp, same⟩

theorem Touched.lookup_ne (ht : Touched es ts tid i active invocations active' invocations') {tid' : Nat}
    (hne : tid' ≠ tid) : active'.lookup tid' = active.lookup tid' := by
  cases ht with
  | stays active' a others lookup same tracked => exact others tid' hne
  | returns inv same returned => rw [lookup_erase_if, if_neg hne]

theorem Tracks.touch (h : Tracks es ts next active invocations) (ha : active.lookup tid = some a)
    (he : TouchEvent tid a.id es e e')
    (ht : Touched (es ++ [e]) (ts ++ [e']) tid a.id active invocations active' invocations') :
    Tracks (es ++ [e]) (ts ++ [e']) next active' invocations' := by
  have hcount : (es ++ [e]).countP CollectorEvent.isEntry = es.countP CollectorEvent.isEntry := by
    simp [List.countP_append, he.entry]
  have hne : ∀ i, i ≠ a.id → ∀ x ∈ [e'], x.invocationId ≠ some i := by
    intro i hi x hx
    rw [List.mem_singleton.mp hx]
    exact fun hc => hi (he.only i hc)
  have hother : ∀ tid' b, tid' ≠ tid → active.lookup tid' = some b → b.id ≠ a.id :=
    fun tid' b hne hb hid => hne (h.apart tid' b tid a hb ha hid)
  refine ⟨by rw [hcount, h.counted], ?_, ?_, ?_, ?_, ?_, ?_, ?_, ?_, ?_⟩
  · intro i hi
    rw [hcount] at hi
    have hia : i ≠ a.id := by
      rintro rfl
      have hrec := (h.tracked tid a ha).record
      rw [h.fresh a.id hi] at hrec
      cases hrec
    rw [(record_append ts (hne i hia)).1, h.fresh i hi]
  · intro tid' b hb
    rcases ht.lookup hb with ⟨rfl, -, htr, -⟩ | ⟨hn, hb⟩
    · exact htr
    · refine (h.tracked tid' b hb).keep (hne b.id (hother tid' b hn hb)) ?_
      rintro v hv rfl
      exact hn (he.onThread v hv)
  · intro inv hi
    rcases ht.mem hi with hi | ⟨-, hret, -⟩
    · exact closed_keep (h.closed inv hi) (hne inv.id (h.disjoint tid a ha inv hi)) he.later
    · exact .inr hret
  · intro i r hr
    by_cases hi : i = a.id
    · rw [hi]
      exact ht.known
    · rw [(record_append ts (hne i hi)).1] at hr
      rcases h.onto i r hr with ⟨tid', b, hb, rfl⟩ | ⟨inv, hinv, rfl⟩
      · have hn : tid' ≠ tid := by
          rintro rfl
          rw [ha] at hb
          cases hb
          exact hi rfl
        exact .inl ⟨tid', b, (ht.lookup_ne hn).trans hb, rfl⟩
      · exact .inr ⟨inv, ht.mem_of_mem hinv, rfl⟩
  · intro tid₁ a₁ tid₂ a₂ h₁ h₂ hid
    rcases ht.lookup h₁ with ⟨e₁, i₁, -, -⟩ | ⟨n₁, l₁⟩ <;> rcases ht.lookup h₂ with ⟨e₂, i₂, -, -⟩ | ⟨n₂, l₂⟩
    · rw [e₁, e₂]
    · exact absurd (hid.symm.trans i₁) (hother tid₂ a₂ n₂ l₂)
    · exact absurd (hid.trans i₂) (hother tid₁ a₁ n₁ l₁)
    · exact h.apart tid₁ a₁ tid₂ a₂ l₁ l₂ hid
  · intro tid' b hb inv hi
    rcases ht.lookup hb with ⟨rfl, hid, -, heq⟩ | ⟨hn, hb'⟩
    · rw [heq] at hi
      rw [hid]
      exact h.disjoint tid' a ha inv hi
    · rcases ht.mem hi with hi | ⟨hid, -, -⟩
      · exact h.disjoint tid' b hb' inv hi
      · rw [hid]
        exact (hother tid' b hn hb').symm
  · cases ht with
    | stays active' b others lookup same tracked => exact h.nodup
    | returns inv same returned =>
        rw [List.map_append, List.nodup_append]
        refine ⟨h.nodup, by simp, ?_⟩
        intro id hid id' hid'
        obtain ⟨inv', hi', rfl⟩ := List.mem_map.mp hid
        rw [List.map_singleton, List.mem_singleton] at hid'
        rw [hid', same]
        exact h.disjoint tid a ha inv' hi'
  · rw [violationsOf_concat, violationsOf_concat, he.violation, h.violations]
  · intro x hx
    rcases List.mem_append.mp hx with hx | hx
    · exact h.tagged x hx
    · rw [List.mem_singleton.mp hx]
      exact he.tagged

end SliceProfiler
