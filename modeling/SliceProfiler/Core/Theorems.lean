import SliceProfiler.Core.Lemmas.Bands
import SliceProfiler.Core.Lemmas.Filters
import SliceProfiler.Core.Lemmas.Format
import SliceProfiler.Core.Lemmas.Metrics
import SliceProfiler.Core.Lemmas.Percentile

/-!
# Theorems on profiles and queries

`validate` accepts exactly the well-formed profiles. On such a profile a query succeeds, and selects
the eligible invocations in its rank band. Its flame tree is the prefix-sum tree of the contributing
samples, and adjacent bands add up to the range that they cover. The metrics share one population, and
the two states add up to the wall time. Interpolated percentiles stay within the durations, and below the ranks
that they select.
-/

namespace SliceProfiler

open Lib

variable {p : Profile} {q : Query}

/-! ## Validation -/

theorem validate_ok_iff_wellFormed (p : Profile) : p.validate = .ok () ↔ p.WellFormed :=
  ⟨Profile.WellFormed.of_validate, Profile.WellFormed.validate⟩

/-- The walk along the parents takes at most two iterations more than there are invocations, and the invocation
is reported as cyclic exactly when its parents lead to no last one. -/
theorem ancestry_exact (hn : (p.invocations.map (·.id)).Nodup) : ∀ i ∈ p.invocations,
    (∃ cyclic, (∀ n, p.invocations.length + 2 ≤ n → walk p.parentOf n ∅ (some i.id) = some cyclic) ∧
      (cyclic = true ↔ ¬ p.ReachesTop i.id)) ∧
    ∀ functionIds threadIds invocationIds,
      p.validateInvocation functionIds threadIds invocationIds i = .error (.cyclicInvocationParent i.id) ↔
        (i.functionId ∈ functionIds ∧ i.tid ∈ threadIds ∧ i.startNs ≤ i.endNs ∧
          ∀ q, i.parentId = some q → q ∈ invocationIds) ∧ ¬ p.ReachesTop i.id := by
  intro i _
  refine ⟨?_, fun _ _ _ => validateInvocation_eq_cyclic hn⟩
  obtain ⟨cyclic, -, hc⟩ := ancestry_of_le hn i.id (le_refl _)
  refine ⟨cyclic, fun n h => ?_, ?_⟩
  · obtain ⟨cyclic', hw, hc'⟩ := ancestry_of_le hn i.id h
    rw [hc, Option.some.injEq] at hc'
    rw [hw, hc']
  · rw [← ends_iff_reachesTop hn, ← ancestry_eq_true hn, hc, Option.some.injEq]

def loopFunction : Function :=
  ⟨1, "target", none, 0x1000, "_Z4workv", "work()", none, none⟩

/-- A call that is its own caller, a cycle of two calls with a call that leads to it, and a call from an unknown
one. -/
def tangledCalls : Profile where
  formatVersion := 1
  metadata := ⟨0, ["target"], "6.6", 1000000⟩
  functions := [loopFunction]
  threads := [⟨7, none⟩]
  invocations := [⟨1, 1, some 1, 7, 0, 30, true, true⟩, ⟨2, 1, some 3, 7, 5, 15, true, true⟩,
    ⟨3, 1, some 2, 7, 5, 15, true, true⟩, ⟨4, 1, some 2, 7, 5, 15, true, true⟩, ⟨5, 1, some 9, 7, 5, 15, true, true⟩]
  «stacks» := []
  samples := []
  quality := {}

def selfCall : Invocation := ⟨1, 1, some 1, 7, 0, 30, true, true⟩

theorem tangledCalls_ancestry :
    (∃ cyclic, (∀ n, 7 ≤ n → walk tangledCalls.parentOf n ∅ (some 1) = some cyclic) ∧
      (cyclic = true ↔ ¬ tangledCalls.ReachesTop 1)) ∧
    (tangledCalls.validateInvocation {1} {7} {1, 2, 3, 4, 5} selfCall = .error (.cyclicInvocationParent 1) ↔
      (1 ∈ ({1} : Finset Nat) ∧ 7 ∈ ({7} : Finset Nat) ∧ 0 ≤ 30 ∧
        ∀ q, some 1 = some q → q ∈ ({1, 2, 3, 4, 5} : Finset Nat)) ∧ ¬ tangledCalls.ReachesTop 1) := by
  obtain ⟨hwalk, hvalidate⟩ := ancestry_exact (p := tangledCalls) (by decide) selfCall (by decide)
  exact ⟨hwalk, hvalidate {1} {7} {1, 2, 3, 4, 5}⟩

example : tangledCalls.invocations.map (fun i => tangledCalls.ancestry i.id) =
    [some true, some true, some true, some true, some false] := by decide

/-! ## The rank band of a query -/

def eligibleCount (p : Profile) (q : Query) : Nat := p.invocations.countP fun i => q.Eligible i

/-- The result holds the eligible invocations with a rank from `⌈n * low / 100⌉` to before
`⌈n * high / 100⌉`, in their order. -/
structure SelectsBand (p : Profile) (q : Query) (r : QueryResult) : Prop where
  slice : (rankBounds (eligibleCount p q) q.percentile).1 ≤ (rankBounds (eligibleCount p q) q.percentile).2 ∧
    (rankBounds (eligibleCount p q) q.percentile).2 ≤ eligibleCount p q
  selected : ∀ i ∈ p.invocations, i.id ∈ r.selectedInvocationIds ↔
    q.Eligible i ∧ eligibleCount p q * q.percentile.low ⌈/⌉ 100 ≤ below p q i ∧
      below p q i < eligibleCount p q * q.percentile.high ⌈/⌉ 100
  ordered : ∃ l : List Invocation, r.selectedInvocationIds = l.map (·.id) ∧
    (∀ i ∈ l, i ∈ p.invocations) ∧ l.Pairwise Invocation.Below
  available : r.availableInvocationCount = eligibleCount p q
  latencyMin : ∀ d, r.latencyMinNs = some d ↔
    (∃ i ∈ p.invocations, i.id ∈ r.selectedInvocationIds ∧ i.durationNs = d) ∧
      ∀ i ∈ p.invocations, i.id ∈ r.selectedInvocationIds → d ≤ i.durationNs
  latencyMax : ∀ d, r.latencyMaxNs = some d ↔
    (∃ i ∈ p.invocations, i.id ∈ r.selectedInvocationIds ∧ i.durationNs = d) ∧
      ∀ i ∈ p.invocations, i.id ∈ r.selectedInvocationIds → i.durationNs ≤ d
  noLatency : (r.latencyMinNs = none ↔ r.selectedInvocationIds = []) ∧
    (r.latencyMaxNs = none ↔ r.selectedInvocationIds = [])

theorem executeQuery_ok (hw : p.WellFormed) (hlh : q.percentile.low < q.percentile.high)
    (hh : q.percentile.high ≤ 100) (ht : ∀ t, q.time = some t → t.fromNs < t.toNs) :
    ∃ r, executeQuery p q = .ok r ∧ r.selectedInvocationIds = (selected p q).map (·.id) ∧
      r.availableInvocationCount = (candidates p q).length ∧
      r.latencyMinNs = ((selected p q).map (·.durationNs)).min? ∧
      r.latencyMaxNs = ((selected p q).map (·.durationNs)).max? :=
  executeQuery_ok_of_known hw.knownStacks hlh hh ht

theorem exists_selected (hn : (p.invocations.map (·.id)).Nodup) {P : Invocation → Prop} :
    (∃ i ∈ selected p q, P i) ↔ ∃ i ∈ p.invocations, i.id ∈ (selected p q).map (·.id) ∧ P i := by
  constructor
  · rintro ⟨i, hi, hp⟩
    exact ⟨i, ((mem_selected hn).mp hi).1.1, List.mem_map_of_mem hi, hp⟩
  · rintro ⟨i, hi, hs, hp⟩
    exact ⟨i, (mem_selected_ids hn hi).mp hs, hp⟩

theorem forall_selected (hn : (p.invocations.map (·.id)).Nodup) {P : Invocation → Prop} :
    (∀ i ∈ selected p q, P i) ↔ ∀ i ∈ p.invocations, i.id ∈ (selected p q).map (·.id) → P i := by
  constructor
  · intro h i hi hs
    exact h i ((mem_selected_ids hn hi).mp hs)
  · intro h i hi
    exact h i ((mem_selected hn).mp hi).1.1 (List.mem_map_of_mem hi)

theorem executeQuery_selects_band (hv : p.validate = .ok ())
    (hlh : q.percentile.low < q.percentile.high) (hh : q.percentile.high ≤ 100)
    (ht : ∀ t, q.time = some t → t.fromNs < t.toNs) (hn : 100 * eligibleCount p q < 2 ^ 64) :
    ∃ r, executeQuery p q = .ok r ∧ SelectsBand p q r := by
  have hw := Profile.WellFormed.of_validate hv
  have hid := hw.invocationIds
  have hlen : (candidates p q).length = eligibleCount p q := length_candidates
  obtain ⟨r, hr, hsel, havail, hmin, hmax⟩ := executeQuery_ok hw hlh hh ht
  refine ⟨r, hr, rankBounds_le _ _ hlh.le, ?_, ?_, by rw [havail, hlen], ?_, ?_, ?_⟩
  · intro i hi
    rw [hsel, mem_selected_ids hid hi, mem_selected hid, hlen, rankBounds_eq hn (by omega) hh]
    simp only [hi, true_and]
  · refine ⟨selected p q, hsel, fun i hi => ((mem_selected hid).mp hi).1.1, ?_⟩
    exact (candidates_strict hid).sublist selected_sublist
  · intro d
    rw [hmin, List.min?_eq_some_iff, hsel, ← exists_selected hid, ← forall_selected hid]
    simp only [List.mem_map, forall_exists_index, and_imp, forall_apply_eq_imp_iff₂]
  · intro d
    rw [hmax, List.max?_eq_some_iff, hsel, ← exists_selected hid, ← forall_selected hid]
    simp only [List.mem_map, forall_exists_index, and_imp, forall_apply_eq_imp_iff₂]
  · simp only [hmin, hmax, hsel, List.min?_eq_none_iff, List.max?_eq_none_iff, List.map_eq_nil_iff,
      and_self]

/-- Four calls of one function on two threads; the last one did not finish. -/
def fourCalls : Profile where
  formatVersion := 1
  metadata := ⟨0, ["target"], "6.6", 1000000⟩
  functions := [loopFunction]
  threads := [⟨7, none⟩, ⟨8, some "worker"⟩]
  invocations := [⟨1, 1, none, 7, 0, 30, true, true⟩, ⟨2, 1, none, 8, 5, 15, true, true⟩,
    ⟨3, 1, none, 7, 40, 60, true, true⟩, ⟨4, 1, none, 8, 50, 70, false, false⟩]
  «stacks» := [⟨1, [⟨some 1, "work()", some "target", some 0x1000⟩]⟩]
  samples := [⟨10, 1, 1, 7, 0, .onCpu, 1000000⟩, ⟨50, 3, 1, 7, 0, .offCpu, 4⟩]
  quality := { eventsGenerated := 7, samplesGenerated := 2, completeInvocations := 3, incompleteInvocations := 1 }

def upperHalf : Query := ⟨1, none, some ⟨0, 100⟩, ⟨50, 100⟩, .wall⟩

theorem fourCalls_upperHalf_selects_band :
    fourCalls.validate = .ok () ∧ ∃ r, executeQuery fourCalls upperHalf = .ok r ∧ SelectsBand fourCalls upperHalf r :=
  ⟨by decide, executeQuery_selects_band (by decide) (by decide) (by decide)
    (by rintro t ⟨⟩; decide) (by decide)⟩

/-! ## The flame tree of a query -/

/-- The tree of the result is the prefix-sum tree of the samples that contribute to it. -/
structure QueryResult.IsPrefixSumTree (r : QueryResult) (p : Profile) (q : Query) : Prop where
  node : ∀ path ≠ [], (r.root.at path).isSome = true ↔
    ∃ s ∈ p.contributing q r.selectedInvocationIds.toFinset, path <+: q.flamePath (q.selectedName p) s
  value : ∀ path n, r.root.at path = some n → n.valueNs = min (2 ^ 64 - 1)
    (((p.contributing q r.selectedInvocationIds.toFinset).filter fun s =>
      path <+: q.flamePath (q.selectedName p) s).map (·.weightNs)).sum
  siblings : r.root.Ordered
  root : r.root.valueNs = satAdd64 r.sampledCpuNs r.offCpuNs

theorem executeQuery_prefixSumTree {r : QueryResult} (hv : p.validate = .ok ()) (h : executeQuery p q = .ok r) :
    r.IsPrefixSumTree p q := by
  have hk := (Profile.WellFormed.of_validate hv).knownStacks
  have hroot := (executeQuery_totals hk h).2.1
  have hg := executeQuery_weighs hk h
  have hat := at_finish_totals (p := p) (q := q) r.selectedInvocationIds.toFinset
  rw [← hroot] at hat
  constructor
  · intro path hp
    rw [← Option.isSome_map (f := FlameNode.valueNs), hat]
    simp [hp, reached_entries, Profile.FlameReaches, Profile.goesThrough]
  · intro path n hn
    have hvalue := hg.value path
    rw [FlameNode.valueAt, hn] at hvalue
    rw [← u64Max_eq, min_comm]
    exact hvalue
  · rw [hroot]
    exact (totals_sumsOver p q _).ordered.finish "root"
  · have hvalue := hg.value []
    rw [weight_goesThrough_nil] at hvalue
    rw [hg.cpu, hg.off, ← FlameNode.valueAt_nil, hvalue, satAdd64, saturatingAdd]
    omega

theorem fourCalls_upperHalf_prefixSumTree :
    ∃ r, executeQuery fourCalls upperHalf = .ok r ∧ r.IsPrefixSumTree fourCalls upperHalf := by
  have hv : fourCalls.validate = .ok () := by decide
  obtain ⟨r, hr, -⟩ := executeQuery_ok (p := fourCalls) (q := upperHalf) (Profile.WellFormed.of_validate hv)
    (by decide) (by decide) (by rintro t ⟨⟩; decide)
  exact ⟨r, hr, executeQuery_prefixSumTree hv hr⟩

/-! ## Percentile bands -/

theorem executeQuery_band_ok (hw : p.WellFormed) (ht : ∀ t, q.time = some t → t.fromNs < t.toNs)
    {low high : Nat} (hlh : low < high) (hh : high ≤ 100) :
    ∃ r, executeQuery p (q.band low high) = .ok r ∧
      r.selectedInvocationIds = (selected p (q.band low high)).map (·.id) := by
  obtain ⟨r, hr, hids, -⟩ := executeQuery_ok (q := q.band low high) hw hlh hh ht
  exact ⟨r, hr, hids⟩

/-- A range with any cuts inside is made of the bands between the cuts. -/
theorem exists_bands (hw : p.WellFormed) (ht : ∀ t, q.time = some t → t.fromNs < t.toNs)
    (hb : (p.samples.map (·.weightNs)).sum < 2 ^ 64) {low high : Nat} {mids : List Nat}
    (hc : (low :: mids ++ [high]).Pairwise (· < ·)) (hh : high ≤ 100) :
    ∃ whole bands, executeQuery p (q.band low high) = .ok whole ∧
      List.Forall₂ (fun band r => executeQuery p (q.band band.1 band.2) = .ok r)
        (bandsBetween low mids high) bands ∧ QueryResult.MadeOf p whole bands := by
  induction mids generalizing low with
  | nil =>
      have hlh : low < high := (List.pairwise_cons.mp hc).1 high (by simp)
      obtain ⟨whole, hr, hids⟩ := executeQuery_band_ok hw ht hlh hh
      refine ⟨whole, [whole], hr, .cons hr .nil, .single ?_⟩
      rw [hids]; exact selected_ids_nodup hw.invocationIds
  | cons mid mids ih =>
      obtain ⟨hlow, hrest⟩ := List.pairwise_cons.mp hc
      have hlm : low < mid := hlow mid (by simp)
      have hmh : mid < high := (List.pairwise_cons.mp hrest).1 high (by simp)
      obtain ⟨rest, bands, hr, hbands, hmade⟩ := ih hrest
      obtain ⟨whole, hwhole, -⟩ := executeQuery_band_ok hw ht (hlm.trans hmh) hh
      obtain ⟨first, hfirst, -⟩ := executeQuery_band_ok hw ht hlm (hmh.le.trans hh)
      exact ⟨whole, first :: bands, hwhole, .cons hfirst hbands,
        .cons (splitsInto hw hb hlm.le hmh.le hwhole hfirst hr) hmade⟩

/-- The result holds every eligible invocation. -/
structure QueryResult.HoldsAll (r : QueryResult) (p : Profile) (q : Query) : Prop where
  ids : ∀ i ∈ p.invocations, i.id ∈ r.selectedInvocationIds ↔ q.Eligible i
  length : r.selectedInvocationIds.length = eligibleCount p q

theorem holdsAll_of_band (hw : p.WellFormed) (hn : 100 * eligibleCount p q < 2 ^ 64) {r : QueryResult}
    (h : executeQuery p (q.band 0 100) = .ok r) : r.HoldsAll p q := by
  have hlen : (candidates p q).length = eligibleCount p q := length_candidates
  have hsel := (executeQuery_totals hw.knownStacks h).1
  have hall : selected p (q.band 0 100) = candidates p q := selected_all (by rw [hlen]; exact hn)
  constructor
  · intro i hi
    rw [hsel, mem_selected_ids hw.invocationIds hi, hall, mem_candidates]
    simp [hi]
  · rw [hsel, hall, List.length_map, hlen]

theorem percentile_bands (hv : p.validate = .ok ()) (ht : ∀ t, q.time = some t → t.fromNs < t.toNs)
    (hn : 100 * eligibleCount p q < 2 ^ 64) (hb : (p.samples.map (·.weightNs)).sum < 2 ^ 64) :
    (∀ low mid high, low < mid → mid < high → high ≤ 100 → ∃ whole lower upper,
      executeQuery p (q.band low high) = .ok whole ∧ executeQuery p (q.band low mid) = .ok lower ∧
        executeQuery p (q.band mid high) = .ok upper ∧ QueryResult.SplitsInto p whole lower upper) ∧
    (∀ low mids high, (low :: mids ++ [high]).Pairwise (· < ·) → high ≤ 100 → ∃ whole bands,
      executeQuery p (q.band low high) = .ok whole ∧
        List.Forall₂ (fun band r => executeQuery p (q.band band.1 band.2) = .ok r)
          (bandsBetween low mids high) bands ∧ QueryResult.MadeOf p whole bands ∧
        (low = 0 → high = 100 → whole.HoldsAll p q)) := by
  have hw := Profile.WellFormed.of_validate hv
  constructor
  · intro low mid high hlm hmh hh
    obtain ⟨whole, h, -⟩ := executeQuery_band_ok hw ht (hlm.trans hmh) hh
    obtain ⟨lower, h₁, -⟩ := executeQuery_band_ok hw ht hlm (hmh.le.trans hh)
    obtain ⟨upper, h₂, -⟩ := executeQuery_band_ok hw ht hmh hh
    exact ⟨whole, lower, upper, h, h₁, h₂, splitsInto hw hb hlm.le hmh.le h h₁ h₂⟩
  · intro low mids high hc hh
    obtain ⟨whole, bands, h, hbands, hmade⟩ := exists_bands hw ht hb hc hh
    refine ⟨whole, bands, h, hbands, hmade, ?_⟩
    rintro rfl rfl
    exact holdsAll_of_band hw hn h

theorem fourCalls_percentile_bands : ∃ whole lower upper,
    executeQuery fourCalls (upperHalf.band 0 100) = .ok whole ∧
      executeQuery fourCalls (upperHalf.band 0 50) = .ok lower ∧
      executeQuery fourCalls (upperHalf.band 50 100) = .ok upper ∧
      QueryResult.SplitsInto fourCalls whole lower upper :=
  (percentile_bands (p := fourCalls) (q := upperHalf) (by decide) (by rintro t ⟨⟩; decide) (by decide)
    (by decide)).1 0 50 100 (by decide) (by decide) (by decide)

/-! ## Filters -/

/-- The query answers behind the filter and behind each of the parts, and the answers add up. -/
def PartsAddUp (p : Profile) (q : Query) (f : QueryFilter) (parts : List QueryFilter) : Prop :=
  ∃ whole results, executeQuery p (q.filtered f) = .ok whole ∧
    parts.mapM (fun g => executeQuery p (q.filtered g)) = .ok results ∧ whole.AddsUp results

theorem exists_results (hw : p.WellFormed) (hn : 100 * p.invocations.length < 2 ^ 64)
    (hb : (p.samples.map (·.weightNs)).sum < 2 ^ 64) {parts : List QueryFilter} (hproper : ∀ g ∈ parts, g.Proper) :
    ∃ results, parts.mapM (fun g => executeQuery p (q.filtered g)) = .ok results ∧
      List.Forall₂ (QueryResult.Of p q) parts results := by
  simp only [mapM_eq_ok]
  induction parts with
  | nil => exact ⟨[], .nil, .nil⟩
  | cons g parts ih =>
      obtain ⟨r, hr, hof⟩ := executeQuery_filtered (q := q) hw hn hb (hproper g List.mem_cons_self)
      obtain ⟨results, hresults, hofs⟩ := ih fun g' hg' => hproper g' (List.mem_cons_of_mem _ hg')
      exact ⟨r :: results, .cons hr hresults, .cons hof hofs⟩

theorem partsAddUp (hw : p.WellFormed) (hn : 100 * p.invocations.length < 2 ^ 64)
    (hb : (p.samples.map (·.weightNs)).sum < 2 ^ 64) {f : QueryFilter} {parts : List QueryFilter} (hf : f.Proper)
    (hproper : ∀ g ∈ parts, g.Proper) (h : f.PartsInto p parts) : PartsAddUp p q f parts := by
  obtain ⟨whole, hwhole, hof⟩ := executeQuery_filtered (q := q) hw hn hb hf
  obtain ⟨results, hresults, hofs⟩ := exists_results (q := q) hw hn hb hproper
  exact ⟨whole, results, hwhole, hresults, addsUp_of_parts hw h hof hofs⟩

/-- Whatever parts the filters are parted into, the parts of the population add up to the whole: so do the time ranges
between any cuts, and the threads one by one. -/
theorem filters_addUp (hv : p.validate = .ok ()) (hn : 100 * p.invocations.length < 2 ^ 64)
    (hb : (p.samples.map (·.weightNs)).sum < 2 ^ 64) :
    (∀ (f : QueryFilter) parts, f.Proper → (∀ g ∈ parts, g.Proper) → f.PartsInto p parts → PartsAddUp p q f parts) ∧
    (∀ threads fromNs mids toNs, (fromNs :: mids ++ [toNs]).Pairwise (· < ·) →
      PartsAddUp p q ⟨threads, some ⟨fromNs, toNs⟩⟩ ((timesBetween fromNs mids toNs).map fun t => ⟨threads, some t⟩)) ∧
    ∀ time, (∀ t, time = some t → t.fromNs < t.toNs) →
      PartsAddUp p q ⟨none, time⟩ (p.threads.map fun t => ⟨some {t.tid}, time⟩) := by
  have hw := Profile.WellFormed.of_validate hv
  refine ⟨fun f parts hf hproper h => partsAddUp hw hn hb hf hproper h, fun threads fromNs mids toNs hc => ?_,
    fun time ht => ?_⟩
  · have hproper := (timesBetween_proper hc).2
    have hwhole : fromNs < toNs := (List.pairwise_cons.mp hc).1 toNs (by simp)
    refine partsAddUp hw hn hb (by rintro _ ⟨⟩; exact hwhole) (fun g hg => ?_) (time_partsInto threads hc)
    obtain ⟨t, hm, rfl⟩ := List.mem_map.mp hg
    rintro _ ⟨⟩
    exact (hproper t hm).2
  · refine partsAddUp hw hn hb ht (fun g hg => ?_) (threads_partsInto hw time)
    obtain ⟨t, -, rfl⟩ := List.mem_map.mp hg
    exact ht

theorem fourCalls_addUp : PartsAddUp fourCalls upperHalf ⟨none, some ⟨0, 100⟩⟩
    ([⟨0, 20⟩, ⟨20, 50⟩, ⟨50, 100⟩].map fun t => ⟨none, some t⟩) :=
  (filters_addUp (p := fourCalls) (q := upperHalf) (by decide) (by decide) (by decide)).2.1 none 0 [20, 50] 100
    (by decide)

/-! ## Metrics -/

/-- An accepted query succeeds under each metric, and the results decompose. -/
theorem executeQuery_metrics {r : QueryResult} (hv : p.validate = .ok ()) (h : executeQuery p q = .ok r) :
    ∃ wall cpu off, executeQuery p (q.under .wall) = .ok wall ∧ executeQuery p (q.under .cpu) = .ok cpu ∧
      executeQuery p (q.under .offCpu) = .ok off ∧ wall.Decomposes cpu off := by
  have hk := (Profile.WellFormed.of_validate hv).knownStacks
  obtain ⟨wall, hwall, -⟩ := executeQuery_under hk h .wall
  obtain ⟨cpu, hcpu, -⟩ := executeQuery_under hk h .cpu
  obtain ⟨off, hoff, -⟩ := executeQuery_under hk h .offCpu
  exact ⟨wall, cpu, off, hwall, hcpu, hoff, decomposes hk hwall hcpu hoff⟩

theorem fourCalls_upperHalf_metrics : ∃ wall cpu off, executeQuery fourCalls (upperHalf.under .wall) = .ok wall ∧
    executeQuery fourCalls (upperHalf.under .cpu) = .ok cpu ∧
      executeQuery fourCalls (upperHalf.under .offCpu) = .ok off ∧ wall.Decomposes cpu off := by
  have hv : fourCalls.validate = .ok () := by decide
  obtain ⟨r, hr, -⟩ := executeQuery_ok (p := fourCalls) (q := upperHalf) (Profile.WellFormed.of_validate hv)
    (by decide) (by decide) (by rintro t ⟨⟩; decide)
  exact executeQuery_metrics hv hr

/-! ## Interpolated percentiles -/

/-- The interpolated values rise from the first duration to the last one, and the one of the lower percentile is
never above the selected durations. -/
theorem percentileR7_consistent {durations : List Nat} (hne : durations ≠ []) (hd : durations.Pairwise (· ≤ ·)) :
    (∀ low high : ℚ, 0 ≤ low → low ≤ high → high ≤ 100 → R7Reads durations low ∧ R7Reads durations high ∧
      ∃ a b, percentileR7 durations low = some a ∧ percentileR7 durations high = some b ∧
        (durations.head hne : ℚ) ≤ a ∧ a ≤ b ∧ b ≤ durations.getLast hne) ∧
    percentileR7 durations 0 = some (durations.head hne : ℚ) ∧
    percentileR7 durations 100 = some (durations.getLast hne : ℚ) ∧
    ∀ (p : Profile) (q : Query) (r : QueryResult), executeQuery p q = .ok r → r.selectedInvocationIds ≠ [] →
      ∃ low latency, r.percentileLowValueNs = some low ∧ r.latencyMinNs = some latency ∧ low ≤ latency := by
  have hn : 0 < durations.length := List.length_pos_iff.mpr hne
  have hzero : percentileR7 durations 0 = some (durations.head hne : ℚ) := by
    rw [percentileR7_zero hn, List.getD_eq_getElem _ _ hn, List.head_eq_getElem]
  have hlast : percentileR7 durations 100 = some (durations.getLast hne : ℚ) := by
    rw [percentileR7_hundred hn, List.getD_eq_getElem _ _ (by omega), List.getLast_eq_getElem]
  refine ⟨fun low high h0 hlh h100 => ⟨r7Reads hn, r7Reads hn, ?_⟩, hzero, hlast, fun p q r h hs =>
    percentileLow_le_latencyMin h hs⟩
  obtain ⟨first, a, hfirst, ha, hfa⟩ := percentileR7_mono hd hn h0
  obtain ⟨a', b, ha', hb, hab⟩ := percentileR7_mono hd hn hlh
  obtain ⟨b', last, hb', hl, hbl⟩ := percentileR7_mono hd hn h100
  cases hzero.symm.trans hfirst
  cases hlast.symm.trans hl
  cases ha.symm.trans ha'
  cases hb.symm.trans hb'
  exact ⟨a, b, ha, hb, hfa, hab, hbl⟩

theorem fourCalls_percentileR7 :
    (∃ a b, percentileR7 [10, 20, 60] 25 = some a ∧ percentileR7 [10, 20, 60] 75 = some b ∧
      (10 : Nat) ≤ a ∧ a ≤ b ∧ b ≤ (60 : Nat)) ∧
    ∃ r low latency, executeQuery fourCalls upperHalf = .ok r ∧ r.percentileLowValueNs = some low ∧
      r.latencyMinNs = some latency ∧ low ≤ latency := by
  have hv : fourCalls.validate = .ok () := by decide
  obtain ⟨hrange, -, -, hquery⟩ :=
    percentileR7_consistent (show [10, 20, 60] ≠ [] by decide) (by decide)
  obtain ⟨r, hr, hsel, -⟩ := executeQuery_ok (p := fourCalls) (q := upperHalf) (Profile.WellFormed.of_validate hv)
    (by decide) (by decide) (by rintro t ⟨⟩; decide)
  obtain ⟨low, latency, h⟩ := hquery fourCalls upperHalf r hr (by rw [hsel]; decide)
  exact ⟨(hrange 25 75 (by norm_num) (by norm_num) (by norm_num)).2.2, r, low, latency, hr, h⟩

/-! ## The file format -/

/-- The bytes of a profile are read back as this profile, or as the error of its version or of its validation. What
is read from any bytes starts with the magic bytes, is of version `1` and is valid. -/
theorem fromBytes_toBytes (l : FileLayers) :
    (∀ p : Profile, p.Fits → l.Lossless (profileCodec.encode p) → ∃ bytes, p.toBytes l = .ok bytes ∧
      (p.validate = .ok () → Profile.fromBytes l bytes = .ok p) ∧
      (p.formatVersion ≠ 1 → Profile.fromBytes l bytes = .error (.unsupportedVersion p.formatVersion)) ∧
      (p.formatVersion = 1 → ∀ e, p.validate = .error e → Profile.fromBytes l bytes = .error (.invalidProfile e))) ∧
    ∀ bytes q, Profile.fromBytes l bytes = .ok q →
      fileMagic <+: bytes ∧ q.formatVersion = 1 ∧ q.validate = .ok () := by
  constructor
  · rintro p hp ⟨text, payload, htext, hread, hpayload, hraw⟩
    have hfrom := fromBytes_of_layers hp hraw hread
    refine ⟨_, toBytes_of_layers htext hpayload, fun hv => ?_, fun hversion => ?_, fun hversion e he => ?_⟩
    · have hversion := (Profile.WellFormed.of_validate hv).version
      rw [hfrom, if_pos hversion, hv]
      rfl
    · rw [hfrom, if_neg hversion]
    · rw [hfrom, if_pos hversion, he]
      rfl
  · intro bytes q h
    obtain ⟨hmagic, -, hversion, hv⟩ := of_fromBytes h
    exact ⟨hmagic, hversion, hv⟩

/-- The text of `fourCalls`. -/
def fourCallsText : List UInt8 := String.toUTF8 (
    r#"{"format_version":1,"metadata":{"captured_at_unix_ns":0,"command":["target"],"# ++
    r#""kernel_release":"6.6","sample_period_ns":1000000},"functions":[{"id":1,"module":"target","# ++
    r#""module_build_id":null,"address":4096,"name":"_Z4workv","demangled_name":"work()","# ++
    r#""source_file":null,"line":null}],"threads":[{"tid":7,"name":null},{"tid":8,"name":"worker"}],"# ++
    r#""invocations":[{"id":1,"function_id":1,"parent_id":null,"tid":7,"start_ns":0,"end_ns":30,"# ++
    r#""complete":true,"valid":true},{"id":2,"function_id":1,"parent_id":null,"tid":8,"start_ns":5,"# ++
    r#""end_ns":15,"complete":true,"valid":true},{"id":3,"function_id":1,"parent_id":null,"tid":7,"# ++
    r#""start_ns":40,"end_ns":60,"complete":true,"valid":true},{"id":4,"function_id":1,"parent_id":null,"# ++
    r#""tid":8,"start_ns":50,"end_ns":70,"complete":false,"valid":false}],"stacks":[{"id":1,"# ++
    r#""frames":[{"function_id":1,"label":"work()","module":"target","address":4096}]}],"# ++
    r#""samples":[{"timestamp_ns":10,"invocation_id":1,"stack_id":1,"tid":7,"cpu":0,"state":"on_cpu","# ++
    r#""weight_ns":1000000},{"timestamp_ns":50,"invocation_id":3,"stack_id":1,"tid":7,"cpu":0,"# ++
    r#""state":"off_cpu","weight_ns":4}],"quality":{"events_generated":7,"events_dropped":0,"# ++
    r#""samples_generated":2,"samples_dropped":0,"complete_invocations":3,"incomplete_invocations":1,"# ++
    r#""stack_mismatches":0,"suspected_async_violations":0}}"#) |>.toList

/-- The text of `fourCalls` as `zstd` compresses it. -/
def fourCallsPayload : List UInt8 :=
  [40, 181, 47, 253, 0, 96, 45, 15, 0, 198, 155, 78, 32, 48, 139, 84, 7, 0, 157, 168, 170, 233, 186, 244, 213,
    232, 89, 163, 246, 239, 90, 10, 10, 96, 87, 1, 40, 201, 114, 243, 12, 37, 5, 5, 113, 65, 0, 70, 0, 71, 0,
    241, 16, 157, 193, 166, 210, 198, 12, 1, 134, 143, 47, 245, 236, 17, 177, 187, 248, 135, 77, 226, 125, 35,
    234, 26, 225, 88, 57, 109, 237, 37, 155, 195, 177, 116, 136, 97, 185, 137, 86, 145, 122, 156, 11, 53, 57,
    114, 172, 171, 74, 247, 205, 6, 113, 236, 222, 146, 241, 16, 180, 218, 226, 83, 28, 9, 103, 75, 65, 79, 113,
    62, 105, 227, 0, 128, 71, 124, 11, 72, 157, 53, 156, 182, 43, 27, 67, 30, 241, 45, 40, 14, 144, 143, 223,
    212, 217, 48, 12, 14, 138, 99, 41, 31, 149, 82, 27, 198, 166, 59, 86, 11, 41, 182, 102, 2, 58, 62, 155, 234,
    169, 229, 8, 194, 177, 116, 111, 109, 114, 83, 177, 89, 14, 8, 245, 86, 114, 194, 4, 155, 174, 124, 75, 150,
    100, 97, 79, 80, 246, 166, 241, 145, 146, 69, 50, 85, 8, 20, 12, 69, 98, 129, 88, 20, 12, 152, 69, 45, 166,
    16, 155, 207, 184, 199, 223, 51, 152, 112, 223, 168, 43, 215, 61, 42, 68, 154, 30, 196, 45, 155, 100, 113,
    124, 129, 33, 56, 86, 107, 149, 62, 58, 214, 38, 89, 220, 98, 1, 203, 114, 56, 150, 238, 173, 85, 246, 22,
    4, 37, 215, 32, 21, 169, 111, 58, 148, 83, 222, 145, 86, 155, 92, 205, 45, 155, 4, 26, 80, 135, 240, 69,
    245, 213, 120, 247, 6, 146, 235, 14, 185, 35, 199, 13, 187, 152, 78, 5, 155, 100, 81, 40, 74, 98, 177, 142,
    198, 250, 130, 141, 39, 76, 200, 61, 31, 127, 117, 3, 69, 160, 97, 189, 51, 68, 67, 65, 74, 138, 147, 194,
    114, 96, 2, 17, 51, 86, 117, 74, 57, 236, 160, 136, 158, 194, 85, 29, 119, 141, 208, 200, 79, 219, 96, 227,
    27, 50, 22, 123, 128, 205, 217, 13, 134, 103, 247, 202, 50, 123, 174, 34, 214, 177, 146, 84, 67, 132, 167,
    144, 193, 196, 242, 61, 13, 17, 71, 57, 83, 36, 99, 101, 36, 25, 150, 232, 19, 7, 182, 230, 133, 148, 114,
    17, 136, 168, 50, 144, 44, 74, 250, 137, 209, 157, 54, 27, 62, 176, 26, 239, 231, 251, 68, 157, 177, 166,
    159, 242, 103, 219, 200, 221, 69, 171, 88, 0, 12, 235, 125, 0, 231, 67, 184, 157, 88, 65, 224, 180, 102,
    227, 12, 62, 130, 221, 62, 241, 34, 50, 49, 35, 151, 181, 70, 234, 237, 155, 129, 251, 149, 71, 145, 36,
    229, 71, 182, 78, 202, 19, 57, 9, 99, 156, 93, 35, 19, 237, 169, 2]

/-- Layers that know one tree, its text and the payload of this text. -/
def recordedLayers (tree : Json) (text payload : List UInt8) : FileLayers where
  toVec _ := some text
  fromSlice bytes := if bytes = text then some tree else none
  encodeAll bytes _ := if bytes = text then some payload else none
  decodeAll bytes := if bytes = payload then some text else none

theorem recordedLayers_lossless (tree : Json) (text payload : List UInt8) :
    (recordedLayers tree text payload).Lossless tree :=
  ⟨text, payload, rfl, if_pos rfl, if_pos rfl, if_pos rfl⟩

theorem fromBytes_recordedLayers {p : Profile} (hp : p.Fits) (hv : p.validate = .ok ()) (text payload : List UInt8) :
    Profile.fromBytes (recordedLayers (profileCodec.encode p) text payload) (fileMagic ++ payload) = .ok p :=
  fromBytes_of_valid hp hv (if_pos rfl) (if_pos rfl)

def fourCallsLayers : FileLayers := recordedLayers (profileCodec.encode fourCalls) fourCallsText fourCallsPayload

theorem fourCalls_fromBytes : ∃ bytes, fourCalls.toBytes fourCallsLayers = .ok bytes ∧
    Profile.fromBytes fourCallsLayers bytes = .ok fourCalls ∧ fileMagic <+: bytes ∧ fourCalls.formatVersion = 1 ∧
      fourCalls.validate = .ok () := by
  obtain ⟨bytes, hbytes, hvalid, -⟩ := (fromBytes_toBytes fourCallsLayers).1 fourCalls (by decide)
    (recordedLayers_lossless _ _ _)
  exact ⟨bytes, hbytes, hvalid (by decide), (fromBytes_toBytes fourCallsLayers).2 bytes fourCalls (hvalid (by decide))⟩

end SliceProfiler
