import SliceProfiler.Core.Lemmas.Bands
import SliceProfiler.Lib.Splits

/-!
# Parting a population by its filters
-/

namespace SliceProfiler

open Lib

/-- The filters of a query on threads and starts. -/
structure QueryFilter where
  threads : Option (Finset Nat)
  time : Option TimeRange

/-- The whole population behind a filter. -/
def Query.filtered (q : Query) (f : QueryFilter) : Query :=
  { q with threads := f.threads, time := f.time, percentile := ⟨0, 100⟩ }

structure QueryFilter.Passes (f : QueryFilter) (i : Invocation) : Prop where
  thread : ∀ threads, f.threads = some threads → i.tid ∈ threads
  time : ∀ t, f.time = some t → t.fromNs ≤ i.startNs ∧ i.startNs < t.toNs

/-- The time range is accepted. -/
def QueryFilter.Proper (f : QueryFilter) : Prop := ∀ t, f.time = some t → t.fromNs < t.toNs

/-- Each invocation behind the filter is behind one of the parts, and behind no two of them. -/
structure QueryFilter.PartsInto (p : Profile) (f : QueryFilter) (parts : List QueryFilter) : Prop where
  cover : ∀ i ∈ p.invocations, f.Passes i ↔ ∃ g ∈ parts, g.Passes i
  apart : parts.Pairwise fun g g' => ∀ i ∈ p.invocations, ¬ (g.Passes i ∧ g'.Passes i)

/-- Every number of the result is made of those of the parts. -/
structure QueryResult.AddsUp (whole : QueryResult) (parts : List QueryResult) : Prop where
  ids : whole.selectedInvocationIds.Perm (parts.flatMap (·.selectedInvocationIds))
  available : whole.availableInvocationCount = (parts.map (·.availableInvocationCount)).sum
  latencyMin : whole.latencyMinNs = (parts.filterMap (·.latencyMinNs)).min?
  latencyMax : whole.latencyMaxNs = (parts.filterMap (·.latencyMaxNs)).max?
  cpu : whole.sampledCpuNs = (parts.map (·.sampledCpuNs)).sum
  off : whole.offCpuNs = (parts.map (·.offCpuNs)).sum
  value : ∀ path, whole.root.valueAt path = (parts.map (·.root.valueAt path)).sum

variable {p : Profile} {q : Query} {f : QueryFilter} {parts : List QueryFilter}

/-! ## Populations -/

theorem eligible_filtered {i : Invocation} : (q.filtered f).Eligible i ↔
    (i.functionId = q.functionId ∧ i.complete = true ∧ i.valid = true) ∧ f.Passes i :=
  ⟨fun h => ⟨⟨h.function, h.complete, h.valid⟩, h.thread, h.time⟩,
    fun ⟨⟨hf, hc, hv⟩, ht, htime⟩ => ⟨hf, hc, hv, ht, htime⟩⟩

theorem candidates_nodup (hw : p.WellFormed) : (candidates p q).Nodup :=
  List.Nodup.of_map _ (candidates_ids_nodup hw.invocationIds)

theorem candidates_partsInto (hw : p.WellFormed) (h : f.PartsInto p parts) :
    (candidates p (q.filtered f)).Perm (parts.flatMap fun g => candidates p (q.filtered g)) := by
  have hnodup : (parts.flatMap fun g => candidates p (q.filtered g)).Nodup := by
    refine List.nodup_flatMap.mpr ⟨fun g _ => candidates_nodup hw, h.apart.imp fun hapart i hi hi' => ?_⟩
    obtain ⟨hm, he⟩ := mem_candidates.mp hi
    exact hapart i hm ⟨(eligible_filtered.mp he).2, (eligible_filtered.mp (mem_candidates.mp hi').2).2⟩
  refine (List.perm_ext_iff_of_nodup (candidates_nodup hw) hnodup).mpr fun i => ?_
  simp only [List.mem_flatMap, mem_candidates, eligible_filtered]
  constructor
  · rintro ⟨hi, hbase, hf⟩
    obtain ⟨g, hg, hpass⟩ := (h.cover i hi).mp hf
    exact ⟨g, hg, hi, hbase, hpass⟩
  · rintro ⟨g, hg, hi, hbase, hpass⟩
    exact ⟨hi, hbase, (h.cover i hi).mpr ⟨g, hg, hpass⟩⟩

/-- No rank is cut off. -/
theorem selected_filtered (hn : 100 * p.invocations.length < 2 ^ 64) :
    selected p (q.filtered f) = candidates p (q.filtered f) := by
  refine selected_all (q := q.filtered f) ?_
  have hlen : (candidates p (q.filtered f)).length ≤ p.invocations.length := by
    rw [length_candidates]
    exact List.countP_le_length
  omega

/-! ## Results -/

theorem weight_flatten {ids : List (List Nat)} (h : ids.flatten.Nodup) (c : ResolvedSample → Bool) :
    p.weight q ids.flatten.toFinset c = (ids.map fun l => p.weight q l.toFinset c).sum := by
  induction ids with
  | nil =>
      simp only [List.flatten_nil, List.toFinset_nil, Profile.weight, Profile.contributing, List.map_nil, List.sum_nil]
      rw [List.filter_eq_nil_iff.mpr]
      · rfl
      · simp [Query.contributes]
  | cons l ids ih =>
      rw [List.flatten_cons] at h
      have hdisj : Disjoint l.toFinset ids.flatten.toFinset := by
        rw [List.disjoint_toFinset_iff_disjoint]
        exact List.disjoint_of_nodup_append h
      rw [List.flatten_cons, List.toFinset_append, weight_union hdisj, ih h.of_append_right, List.map_cons,
        List.sum_cons]

/-- What a filter's result is made of, as long as no sum saturates. -/
structure QueryResult.Of (p : Profile) (q : Query) (f : QueryFilter) (r : QueryResult) : Prop where
  ids : r.selectedInvocationIds = (candidates p (q.filtered f)).map (·.id)
  available : r.availableInvocationCount = (candidates p (q.filtered f)).length
  latencyMin : r.latencyMinNs = ((candidates p (q.filtered f)).map (·.durationNs)).min?
  latencyMax : r.latencyMaxNs = ((candidates p (q.filtered f)).map (·.durationNs)).max?
  cpu : r.sampledCpuNs = p.weight q r.selectedInvocationIds.toFinset fun s => s.state = .onCpu
  off : r.offCpuNs = p.weight q r.selectedInvocationIds.toFinset fun s => s.state = .offCpu
  value : ∀ path, r.root.valueAt path = p.weight q r.selectedInvocationIds.toFinset (p.goesThrough q path)

theorem executeQuery_filtered (hw : p.WellFormed) (hn : 100 * p.invocations.length < 2 ^ 64)
    (hb : (p.samples.map (·.weightNs)).sum < 2 ^ 64) (hf : f.Proper) :
    ∃ r, executeQuery p (q.filtered f) = .ok r ∧ QueryResult.Of p q f r := by
  obtain ⟨r, hr, hids, havail, hmin, hmax⟩ :=
    executeQuery_ok_of_known (q := q.filtered f) hw.knownStacks (show 0 < 100 by decide) le_rfl hf
  have hg := executeQuery_weighs hw.knownStacks hr
  have hfits : ∀ ids c, min (p.weight (q.filtered f) ids c) u64Max = p.weight q ids c := by
    intro ids c
    have hle : p.weight q ids c ≤ (p.samples.map (·.weightNs)).sum := weight_le ids c
    have hsame : p.weight (q.filtered f) ids c = p.weight q ids c := rfl
    rw [hsame, u64Max_eq]
    omega
  rw [selected_filtered hn] at hids hmin hmax
  exact ⟨r, hr, hids, havail, hmin, hmax, by rw [hg.cpu, hfits], by rw [hg.off, hfits],
    fun path => by rw [hg.value, hfits]; rfl⟩

theorem addsUp_of_parts (hw : p.WellFormed) (h : f.PartsInto p parts) {whole : QueryResult} {results : List QueryResult}
    (hwhole : QueryResult.Of p q f whole) (hparts : List.Forall₂ (QueryResult.Of p q) parts results) :
    whole.AddsUp results := by
  have hperm := candidates_partsInto (q := q) hw h
  have hids : results.map (·.selectedInvocationIds) = parts.map fun g => (candidates p (q.filtered g)).map (·.id) :=
    map_eq_of_forall₂ hparts fun _ _ hr => hr.ids
  have hflat : whole.selectedInvocationIds.Perm (results.map (·.selectedInvocationIds)).flatten := by
    rw [hwhole.ids, hids, ← List.flatMap_def, ← List.map_flatMap]
    exact hperm.map _
  have hsame : whole.selectedInvocationIds.toFinset = (results.map (·.selectedInvocationIds)).flatten.toFinset :=
    List.toFinset_eq_of_perm _ _ hflat
  have hnodup : (results.map (·.selectedInvocationIds)).flatten.Nodup := by
    rw [← hflat.nodup_iff, hwhole.ids]
    exact candidates_ids_nodup hw.invocationIds
  have hsum : ∀ c, p.weight q whole.selectedInvocationIds.toFinset c =
      (results.map fun r => p.weight q r.selectedInvocationIds.toFinset c).sum := by
    intro c
    rw [hsame, weight_flatten hnodup, List.map_map]
    rfl
  have hself : ∀ {g g' : QueryResult → Nat}, (∀ f r, QueryResult.Of p q f r → g' r = g r) →
      results.map g' = results.map g := by
    intro g g' hg
    refine List.map_congr_left fun r hr => ?_
    obtain ⟨f', -, hof⟩ := exists_of_forall₂ hparts.flip hr
    exact hg f' r hof
  constructor
  · rw [List.flatMap_def]
    exact hflat
  · rw [map_eq_of_forall₂ hparts fun _ _ hr => hr.available, hwhole.available, hperm.length_eq, List.length_flatMap]
  · rw [hwhole.latencyMin, min?_eq_of_perm (hperm.map _), List.map_flatMap, min?_flatMap,
      filterMap_eq_of_forall₂ hparts fun _ _ hr => hr.latencyMin]
  · rw [hwhole.latencyMax, max?_eq_of_perm (hperm.map _), List.map_flatMap, max?_flatMap,
      filterMap_eq_of_forall₂ hparts fun _ _ hr => hr.latencyMax]
  · rw [hwhole.cpu, hsum, hself fun _ _ hr => hr.cpu]
  · rw [hwhole.off, hsum, hself fun _ _ hr => hr.off]
  · intro path
    rw [hwhole.value, hsum, hself fun _ _ hr => hr.value path]

/-! ## Parts -/

/-- The time ranges between cuts. -/
def timesBetween (fromNs : Nat) (mids : List Nat) (toNs : Nat) : List TimeRange :=
  match mids with
  | [] => [⟨fromNs, toNs⟩]
  | mid :: mids => ⟨fromNs, mid⟩ :: timesBetween mid mids toNs

theorem mem_timesBetween {fromNs toNs start : Nat} {mids : List Nat}
    (hc : (fromNs :: mids ++ [toNs]).Pairwise (· < ·)) :
    fromNs ≤ start ∧ start < toNs ↔ ∃ t ∈ timesBetween fromNs mids toNs, t.fromNs ≤ start ∧ start < t.toNs := by
  induction mids generalizing fromNs with
  | nil => simp [timesBetween]
  | cons mid mids ih =>
      obtain ⟨hfrom, hrest⟩ := List.pairwise_cons.mp hc
      have hmid : fromNs < mid := hfrom mid (by simp)
      have hto : mid < toNs := (List.pairwise_cons.mp hrest).1 toNs (by simp)
      simp only [timesBetween, List.mem_cons, exists_eq_or_imp, ← ih hrest]
      omega

theorem timesBetween_proper {fromNs toNs : Nat} {mids : List Nat} (hc : (fromNs :: mids ++ [toNs]).Pairwise (· < ·)) :
    (timesBetween fromNs mids toNs).Pairwise (fun t t' => t.toNs ≤ t'.fromNs) ∧
    ∀ t ∈ timesBetween fromNs mids toNs, fromNs ≤ t.fromNs ∧ t.fromNs < t.toNs := by
  induction mids generalizing fromNs with
  | nil => simpa [timesBetween] using hc
  | cons mid mids ih =>
      obtain ⟨hfrom, hrest⟩ := List.pairwise_cons.mp hc
      have hmid : fromNs < mid := hfrom mid (by simp)
      obtain ⟨hapart, hall⟩ := ih hrest
      refine ⟨List.pairwise_cons.mpr ⟨fun t ht => (hall t ht).1, hapart⟩, fun t ht => ?_⟩
      rcases List.mem_cons.mp ht with rfl | ht
      · exact ⟨le_rfl, hmid⟩
      · exact ⟨hmid.le.trans (hall t ht).1, (hall t ht).2⟩

theorem time_partsInto (threads : Option (Finset Nat)) {fromNs toNs : Nat} {mids : List Nat}
    (hc : (fromNs :: mids ++ [toNs]).Pairwise (· < ·)) : QueryFilter.PartsInto p ⟨threads, some ⟨fromNs, toNs⟩⟩
      ((timesBetween fromNs mids toNs).map fun t => ⟨threads, some t⟩) := by
  refine ⟨fun i _ => ?_, List.pairwise_map.mpr ((timesBetween_proper hc).1.imp fun hle i _ => ?_)⟩
  · have htimes : fromNs ≤ i.startNs ∧ i.startNs < toNs ↔
        ∃ t ∈ timesBetween fromNs mids toNs, t.fromNs ≤ i.startNs ∧ i.startNs < t.toNs := mem_timesBetween hc
    constructor
    · rintro ⟨hthread, htime⟩
      obtain ⟨t, ht, hin⟩ := htimes.mp (htime _ rfl)
      exact ⟨_, List.mem_map_of_mem ht, hthread, by rintro _ ⟨⟩; exact hin⟩
    · rintro ⟨g, hg, hthread, htime⟩
      obtain ⟨t, ht, rfl⟩ := List.mem_map.mp hg
      exact ⟨hthread, by rintro _ ⟨⟩; exact htimes.mpr ⟨t, ht, htime t rfl⟩⟩
  · rintro ⟨⟨-, h⟩, -, h'⟩
    have hlt := (h _ rfl).2
    have hge := (h' _ rfl).1
    omega

theorem threads_partsInto (hw : p.WellFormed) (time : Option TimeRange) : QueryFilter.PartsInto p ⟨none, time⟩
    (p.threads.map fun t => ⟨some {t.tid}, time⟩) := by
  refine ⟨fun i hi => ?_, List.pairwise_map.mpr ((List.pairwise_map.mp hw.threadIds).imp fun hne i _ => ?_)⟩
  · constructor
    · rintro ⟨-, htime⟩
      obtain ⟨t, ht, he⟩ := (hw.invocations i hi).thread
      exact ⟨_, List.mem_map_of_mem ht, by rintro _ ⟨⟩; exact Finset.mem_singleton.mpr he.symm, htime⟩
    · rintro ⟨g, hg, -, htime⟩
      obtain ⟨t, -, rfl⟩ := List.mem_map.mp hg
      exact ⟨fun _ h => (Option.some_ne_none _ h.symm).elim, htime⟩
  · rintro ⟨⟨h, -⟩, h', -⟩
    exact hne ((Finset.mem_singleton.mp (h _ rfl)).symm.trans (Finset.mem_singleton.mp (h' _ rfl)))

end SliceProfiler
