import SliceProfiler.Collector.Lemmas.LocalRun

/-!
# The end of the local path

The profiles of a stream without identities and of its tagged stream, after the capture has stopped.
-/

namespace SliceProfiler

open Lib

variable {F : Finset (List Frame)} {p₀ p : Profile} {c : Correlator} {es ts : List CollectorEvent}
  {a : ActiveInvocation} {inv : Invocation} {tid t : Nat} {next : Nat} {active : Map Nat ActiveInvocation}
  {invocations : List Invocation}

/-! ## Reports of the tagged stream -/

/-- What the end of the capture makes of a record. -/
def reportOf (es : List CollectorEvent) (t : Nat) (r : SourceInvocation) : Option Invocation :=
  (r.marked (violationsOf es)).report t

theorem mem_reports_iff : inv ∈ reports es t ↔ ∃ i r, recordOf i es = some r ∧ reportOf es t r = some inv := by
  simp only [reports, List.mem_filterMap, mem_sources, reportOf]
  constructor
  · rintro ⟨_, ⟨i, r, hr, rfl⟩, hrep⟩
    exact ⟨i, r, hr, hrep⟩
  · rintro ⟨i, r, hr, hrep⟩
    exact ⟨_, ⟨i, r, hr, rfl⟩, hrep⟩

/-- What is left of a call without a return. -/
def stoppedAt (timestampNs id functionId tid startNs : Nat) : Invocation :=
  ⟨id, functionId, none, tid, startNs, max timestampNs startNs, false, false⟩

theorem reportOf_openRecord (i f tid start : Nat) (samples : List PendingSample) :
    reportOf ts t (openRecord i f tid start samples) = some (stoppedAt t i f tid start) := by
  simp [reportOf, SourceInvocation.report, SourceInvocation.marked, openRecord, stoppedAt]

theorem reportOf_returnedRecord (i f tid : Nat) {start stop : Nat} (h : start ≤ stop) (valid : Bool)
    (samples : List PendingSample) : reportOf ts t (returnedRecord i f tid start stop valid samples) =
      some ⟨i, f, none, tid, start, stop, true,
        valid && !(violationsOf ts).any (returnedRecord i f tid start stop valid samples).violatedAt⟩ := by
  simp [reportOf, SourceInvocation.report, SourceInvocation.marked, returnedRecord, h]

theorem Invocation.Returned.reportOf (h : inv.Returned es ts) (hviol : violationsOf ts = violationsOf es) :
    ∃ r, recordOf inv.id ts = some r ∧ SliceProfiler.reportOf ts t r = some inv := by
  obtain ⟨valid, hrec, hv⟩ := h.record
  refine ⟨_, hrec, (reportOf_returnedRecord _ _ _ h.bounds _ _).trans ?_⟩
  have hmarked : (valid && !(violationsOf ts).any (returnedRecord inv.id inv.functionId inv.tid inv.startNs inv.endNs
      valid (samplesOf inv.id ts)).violatedAt) = inv.valid := by
    rw [Bool.eq_iff_iff, hv, hviol, Bool.and_eq_true, Bool.not_eq_true', List.any_eq_false]
    refine and_congr_right fun _ => forall₂_congr fun v _ => not_congr ?_
    simp only [SourceInvocation.violatedAt, returnedRecord, Option.any_some, Option.all_some, Bool.and_eq_true,
      beq_iff_eq, decide_eq_true_eq]
    exact and_congr_left' eq_comm
  rw [hmarked, ← h.parent, ← h.complete]

/-- A valid report is an invocation of the local path, and the other way round. -/
theorem Tracks.valid_report (h : Tracks es ts next active invocations) (hv : inv.valid = true) :
    inv ∈ reports ts t ↔ inv ∈ invocations := by
  rw [mem_reports_iff]
  constructor
  · rintro ⟨i, r, hr, hrep⟩
    have hopen : ∀ i f tid start samples, r = openRecord i f tid start samples → False := by
      rintro i f tid start samples rfl
      rw [reportOf_openRecord] at hrep
      cases hrep
      cases hv
    rcases h.onto i r hr with ⟨tid, a, ha, rfl⟩ | ⟨inv', hinv', rfl⟩
    · rw [(h.tracked tid a ha).record] at hr
      exact (hopen _ _ _ _ _ (Option.some.inj hr).symm).elim
    · rcases h.closed inv' hinv' with hs | hret
      · rw [hs.record] at hr
        exact (hopen _ _ _ _ _ (Option.some.inj hr).symm).elim
      · obtain ⟨r', hr', hrep'⟩ := hret.reportOf (t := t) h.violations
        rw [hr] at hr'
        cases hr'
        rw [hrep] at hrep'
        cases hrep'
        exact hinv'
  · intro hi
    rcases h.closed inv hi with hs | hret
    · rw [hs.valid] at hv
      cases hv
    · exact ⟨inv.id, hret.reportOf h.violations⟩

theorem Tracks.mem_report_ids (h : Tracks es ts next active invocations) (i : Nat) :
    i ∈ (reports ts t).map (·.id) ↔
      (∃ tid a, active.lookup tid = some a ∧ a.id = i) ∨ ∃ inv ∈ invocations, inv.id = i := by
  have hreport : ∀ inv, (∃ r, recordOf i ts = some r ∧ reportOf ts t r = some inv) → inv.id = i →
      i ∈ (reports ts t).map (·.id) := by
    rintro inv ⟨r, hr, hrep⟩ hid
    exact List.mem_map.mpr ⟨inv, mem_reports_iff.mpr ⟨i, r, hr, hrep⟩, hid⟩
  constructor
  · intro hi
    obtain ⟨inv, hinv, rfl⟩ := List.mem_map.mp hi
    obtain ⟨i, r, hr, hrep⟩ := mem_reports_iff.mp hinv
    have hid : inv.id = i := (id_of_report hrep).trans (recordOf_id hr).id
    rw [hid]
    exact h.onto i r hr
  · rintro (⟨tid, a, ha, rfl⟩ | ⟨inv, hinv, rfl⟩)
    · exact hreport _ ⟨_, (h.tracked tid a ha).record, reportOf_openRecord ..⟩ rfl
    · rcases h.closed inv hinv with hs | hret
      · exact hreport _ ⟨_, hs.record, reportOf_openRecord ..⟩ rfl
      · exact hreport inv (hret.reportOf h.violations) rfl

/-! ## The active invocations at the end -/

theorem foldl_finishActive (l : List ActiveInvocation) (p : Profile) :
    l.foldl (finishActive t) p =
      p.setBook (p.invocations ++ l.map fun a => stoppedAt t a.id a.functionId a.tid a.startNs)
        (CaptureQuality.incomplete^[l.length] p.quality) := by
  induction l generalizing p with
  | nil => simp [Profile.setBook]
  | cons a l ih =>
      rw [List.foldl_cons, ih]
      simp [finishActive, Profile.setBook, stoppedAt]

theorem incomplete_iterate (n : Nat) (q : CaptureQuality) :
    (CaptureQuality.incomplete^[n] q).completeInvocations = q.completeInvocations ∧
      (CaptureQuality.incomplete^[n] q).incompleteInvocations = countUp n q.incompleteInvocations := by
  induction n generalizing q with
  | zero => exact ⟨rfl, rfl⟩
  | succ n ih => exact ih q.incomplete

theorem Tracks.active_ids (h : Tracks es ts next active invocations) : (active.values.map (·.id)).Nodup := by
  have htids : (active.values.map (·.tid)).Nodup :=
    Map.values_nodup fun tid a ha => (h.tracked tid a ha).thread
  rw [List.nodup_iff_pairwise_ne, List.pairwise_map] at htids ⊢
  refine htids.imp_of_mem fun {a b} ha hb hne hid => hne ?_
  obtain ⟨tid, ha⟩ := Map.mem_values.mp ha
  obtain ⟨tid', hb⟩ := Map.mem_values.mp hb
  rw [(h.tracked tid a ha).thread, (h.tracked tid' b hb).thread]
  exact h.apart tid a tid' b ha hb hid

theorem Tracks.length_reports (h : Tracks es ts next active invocations) :
    (reports ts t).length = invocations.length + active.values.length := by
  have hnodup : (invocations.map (·.id) ++ active.values.map (·.id)).Nodup := by
    rw [List.nodup_append]
    refine ⟨h.nodup, h.active_ids, ?_⟩
    intro i hi j hj
    obtain ⟨inv, hinv, rfl⟩ := List.mem_map.mp hi
    obtain ⟨a, ha, rfl⟩ := List.mem_map.mp hj
    obtain ⟨tid, ha⟩ := Map.mem_values.mp ha
    exact h.disjoint tid a ha inv hinv
  have hreports : ((reports ts t).map (·.id)).Nodup :=
    List.pairwise_map.mpr ((reports_strict ts t).imp fun hlt => hlt.ne)
  have hperm : ((reports ts t).map (·.id)).Perm (invocations.map (·.id) ++ active.values.map (·.id)) := by
    refine (List.perm_ext_iff_of_nodup hreports hnodup).mpr fun i => ?_
    rw [h.mem_report_ids, List.mem_append, List.mem_map, List.mem_map, or_comm]
    refine or_congr Iff.rfl ⟨?_, ?_⟩
    · rintro ⟨tid, a, ha, rfl⟩
      exact ⟨a, Map.mem_values.mpr ⟨tid, ha⟩, rfl⟩
    · rintro ⟨a, ha, rfl⟩
      obtain ⟨tid, ha⟩ := Map.mem_values.mp ha
      exact ⟨tid, a, ha, rfl⟩
  simpa using hperm.length_eq

/-! ## The two profiles -/

theorem LocalState.finish (h : LocalState F p₀ es ts c p) (t : Nat) : c.finish p t =
    p.setBook (p.invocations ++ c.active.values.map fun a => stoppedAt t a.id a.functionId a.tid a.startNs)
      (CaptureQuality.incomplete^[c.active.values.length] p.quality) := by
  simp only [Correlator.finish, h.sourceMode, Bool.false_eq_true, ↓reduceIte, foldl_finishActive]

theorem LocalState.validInvocations (h : LocalState F p₀ es ts c p) (t : Nat) :
    (c.finish p t).validInvocations = p.validInvocations := by
  have hstopped : (c.active.values.map fun a => stoppedAt t a.id a.functionId a.tid a.startNs).filter
      (fun i => i.complete && i.valid) = [] := by
    apply List.filter_eq_nil_iff.mpr
    intro inv hinv
    obtain ⟨a, -, rfl⟩ := List.mem_map.mp hinv
    exact Bool.false_ne_true
  rw [h.finish]
  change (p.invocations ++ _).filter _ = p.invocations.filter _
  rw [List.filter_append, hstopped, List.append_nil]

theorem LocalState.valid_complete (h : LocalState F p₀ es ts c p) (hi : inv ∈ p.invocations)
    (hv : inv.valid = true) : inv.complete = true := by
  rcases h.tracks.closed inv hi with hs | hret
  · rw [hs.valid] at hv
    cases hv
  · exact hret.complete

theorem filter_valid {l : List Invocation} (h : ∀ i ∈ l, i.valid = true → i.complete = true) :
    l.filter (fun i => i.complete && i.valid) = l.filter (·.valid) := by
  refine List.filter_congr fun i hi => ?_
  cases hv : i.valid with
  | false => exact Bool.and_false _
  | true => rw [h i hi hv]; rfl

theorem LocalState.valid_perm (h : LocalState F p₀ es ts c p) (t : Nat) :
    (p.invocations.filter (·.valid)).Perm ((reports ts t).filter (·.valid)) := by
  have hlocal : p.invocations.Nodup := h.tracks.nodup.of_map _
  have htagged : (reports ts t).Nodup := (reports_strict ts t).imp fun hlt heq => by rw [heq] at hlt; exact hlt.false
  refine (List.perm_ext_iff_of_nodup (hlocal.filter _) (htagged.filter _)).mpr fun inv => ?_
  rw [List.mem_filter, List.mem_filter]
  exact and_congr_left fun hv => (h.tracks.valid_report hv).symm

theorem countP_not_valid (l : List Invocation) : l.countP (!·.valid) = l.length - l.countP (·.valid) := by
  rw [List.length_eq_countP_add_countP (·.valid)]
  simp

theorem LocalState.invalid_count (h : LocalState F p₀ es ts c p) (t : Nat) :
    (reports ts t).countP (!·.valid) = p.invocations.countP (!·.valid) + c.active.values.length := by
  have hvalid : (reports ts t).countP (·.valid) = p.invocations.countP (·.valid) := by
    rw [List.countP_eq_length_filter, List.countP_eq_length_filter, (h.valid_perm t).length_eq]
  have hle := List.countP_le_length (p := (·.valid)) (l := p.invocations)
  rw [countP_not_valid, countP_not_valid, hvalid, h.tracks.length_reports]
  omega

theorem countUp_add (m n q : Nat) : countUp m (countUp n q) = countUp (n + m) q := by
  rw [countUp, countUp, countUp, ← Function.iterate_add_apply, Nat.add_comm]

theorem LocalState.keeps (h : LocalState F p₀ es ts c p) (hi : inv ∈ p.invocations) (hv : inv.valid = true) :
    (samplesOf inv.id ts).filter inv.keeps = samplesOf inv.id ts := by
  rcases h.tracks.closed inv hi with hs | hret
  · rw [hs.valid] at hv
    cases hv
  · refine List.filter_eq_self.mpr fun s hs => ?_
    obtain ⟨hle, hge⟩ := hret.samples s hs
    simp [Invocation.keeps, hle, hge]

theorem LocalState.samplesUnder (h : LocalState F p₀ es ts c p) (hi : inv ∈ p.invocations) (hv : inv.valid = true) :
    p.samplesUnder inv.id = (samplesOf inv.id ts).map (·.resolved inv.id) := by
  apply h.samples
  constructor
  · intro tid a ha hid
    exact absurd hid.symm (h.tracks.disjoint tid a ha inv hi)
  · intro inv' hi' hid
    rwa [List.inj_on_of_nodup_map h.tracks.nodup hi' hi hid]

theorem Correlator.tag_frames {e x : CollectorEvent} (h : c.tag e = some x) : x.frames = e.frames := by
  cases e with
  | entry | violation | droppedEvents | droppedSamples => cases h; rfl
  | ret | sample =>
      obtain ⟨a, -, rfl⟩ := Option.map_eq_some_iff.mp h
      rfl

theorem framesIn_tagAll (s : Correlator × Profile) (es : List CollectorEvent) :
    framesIn (tagAll s es) ⊆ framesIn es := by
  intro frames h
  obtain ⟨x, hx, hf⟩ := List.mem_filterMap.mp (List.mem_toFinset.mp h)
  suffices ∃ e ∈ es, x.frames = e.frames by
    obtain ⟨e, he, hxe⟩ := this
    exact List.mem_toFinset.mpr (List.mem_filterMap.mpr ⟨e, he, hxe ▸ hf⟩)
  clear h hf
  induction es generalizing s with
  | nil => cases hx
  | cons e es ih =>
      rcases List.mem_append.mp hx with hx | hx
      · exact ⟨e, List.mem_cons_self, Correlator.tag_frames (Option.mem_toList.mp hx)⟩
      · obtain ⟨e', he', hxe⟩ := ih _ hx
        exact ⟨e', List.mem_cons_of_mem _ he', hxe⟩

/-! ## The functions -/

section

variable {e : CollectorEvent}

theorem internStack_functions (frames : List Frame) : (c.internStack p frames).2.2.functions = p.functions := by
  unfold Correlator.internStack
  split <;> rfl

theorem push_functions : (c.push p e).2.functions = p.functions := by
  cases e with
  | entry id f tid t =>
      cases id with
      | some id => rfl
      | none =>
          simp only [Correlator.push, Correlator.localEntry]
          split <;> rfl
  | ret id f tid t =>
      cases id with
      | some id => rfl
      | none =>
          simp only [Correlator.push, Correlator.localReturn]
          split <;> rfl
  | violation tid t =>
      simp only [Correlator.push, Correlator.violation]
      split
      · rfl
      · split <;> rfl
  | sample id s =>
      cases id with
      | some id => rfl
      | none =>
          simp only [Correlator.push, Correlator.localSample]
          split
          · rfl
          · split
            · exact internStack_functions _
            · rfl
  | droppedEvents | droppedSamples => rfl
theorem pushAll_functions (s : Correlator × Profile) (es : List CollectorEvent) :
    (pushAll s es).2.functions = s.2.functions := by
  induction es generalizing s with
  | nil => rfl
  | cons e es ih => exact (ih _).trans push_functions

end

end SliceProfiler
