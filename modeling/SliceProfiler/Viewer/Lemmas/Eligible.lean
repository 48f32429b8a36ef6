import Mathlib.Data.List.GetD
import SliceProfiler.Core.Lemmas.Query
import SliceProfiler.Viewer.State

/-!
# The eligible invocations of the page
-/

namespace SliceProfiler.Viewer

open Lib

variable {p : Profile} {q : Query} {i : Invocation}

/-- The query that the page shows: a time range that misses the capture is replaced by the whole capture. -/
def shownQuery (p : Profile) (q : Query) : Query :=
  { q with time := q.time.filter fun t => clampTime p t.fromNs < clampTime p t.toNs }

theorem clampTime_natCast (p : Profile) (value : Nat) :
    clampTime p value = (max (bounds p).fromNs (min (bounds p).toNs value) : Nat) := by
  rw [clampTime, Nat.cast_max, Nat.cast_min]

theorem bounds_lt (p : Profile) : (bounds p).fromNs < (bounds p).toNs := by
  simp only [bounds]; omega

/-- The page shows the query itself when its time range meets the capture. -/
theorem shownQuery_eq (hlt : ∀ t, q.time = some t → t.fromNs < t.toNs)
    (hmeets : ∀ t, q.time = some t → (bounds p).fromNs < t.toNs ∧ t.fromNs < (bounds p).toNs) :
    shownQuery p q = q := by
  have hb := bounds_lt p
  have hfilter : q.time.filter (fun t => clampTime p t.fromNs < clampTime p t.toNs) = q.time := by
    cases ht : q.time with
    | none => rfl
    | some t =>
        obtain ⟨hfrom, hto⟩ := hmeets t ht
        have := hlt t ht
        have hclamp : clampTime p t.fromNs < clampTime p t.toNs := by
          rw [clampTime_natCast, clampTime_natCast, Nat.cast_lt]; omega
        rw [Option.filter_some, decide_eq_true hclamp, if_pos rfl]
  rw [shownQuery, hfilter]

theorem startNs_mem_bounds (hi : i ∈ p.invocations) :
    (bounds p).fromNs ≤ i.startNs ∧ i.startNs ≤ (bounds p).toNs := by
  have hm : i.startNs ∈ times p :=
    List.mem_append_left _ (List.mem_flatMap.mpr ⟨i, hi, List.mem_cons_self⟩)
  constructor
  · cases h : (times p).min? with
    | none => rw [List.min?_eq_none_iff.mp h] at hm; cases hm
    | some m =>
        simp only [bounds, h, Option.getD_some]
        exact (List.min?_eq_some_iff.mp h).2 _ hm
  · cases h : (times p).max? with
    | none => rw [List.max?_eq_none_iff.mp h] at hm; cases hm
    | some m =>
        simp only [bounds, h, Option.getD_some]
        exact ((List.max?_eq_some_iff.mp h).2 _ hm).trans (le_max_right _ _)

theorem tid_mem_allThreadIds (hw : p.WellFormed) (hi : i ∈ p.invocations) : i.tid ∈ allThreadIds p := by
  obtain ⟨t, ht, he⟩ := (hw.invocations i hi).thread
  have hne : p.threads.isEmpty = false := by
    cases h : p.threads with
    | nil => rw [h] at ht; cases ht
    | cons => rfl
  rw [allThreadIds, hne]
  exact List.mem_map.mpr ⟨t, ht, he⟩

/-- The window of the page holds the starts of the time range, as long as it is not at the end of the capture. -/
theorem time_initialState {x : Nat} (hfrom : (bounds p).fromNs ≤ x) (hto : x ≤ (bounds p).toNs) :
    ((initialState p q).time.fromNs ≤ x ∧ x < (initialState p q).time.toNs →
      ∀ t, (shownQuery p q).time = some t → t.fromNs ≤ x ∧ x < t.toNs) ∧
    ((∀ t, (shownQuery p q).time = some t → t.fromNs ≤ x ∧ x < t.toNs) → x ≠ (bounds p).toNs →
      (initialState p q).time.fromNs ≤ x ∧ x < (initialState p q).time.toNs) := by
  have hb := bounds_lt p
  cases ht : q.time with
  | none =>
      have hclamp : clampTime p (bounds p).fromNs < clampTime p (bounds p).toNs := by
        rw [clampTime_natCast, clampTime_natCast, Nat.cast_lt]; omega
      simp only [initialState, shownQuery, ht, Option.getD_none, Option.filter_none, ge_iff_le, hclamp.not_ge, if_false]
      simp only [clampTime_natCast, Nat.cast_le, Nat.cast_lt]
      refine ⟨fun _ _ hnone => absurd hnone (by simp), fun _ hne => ?_⟩
      omega
  | some t =>
      by_cases hclamp : clampTime p t.fromNs < clampTime p t.toNs
      · simp only [initialState, shownQuery, ht, Option.getD_some, Option.filter_some, hclamp, decide_true, if_true,
          ge_iff_le, hclamp.not_ge, if_false, Option.some.injEq, forall_eq']
        simp only [clampTime_natCast, Nat.cast_le, Nat.cast_lt] at hclamp ⊢
        exact ⟨fun h => by omega, fun h hne => by omega⟩
      · simp only [initialState, shownQuery, ht, Option.getD_some, Option.filter_some, hclamp, decide_false,
          ge_iff_le, not_lt.mp hclamp, if_true, Nat.cast_le, Nat.cast_lt]
        refine ⟨fun _ _ hnone => absurd hnone (by simp), fun _ hne => ?_⟩
        omega

theorem includes_initialState (hw : p.WellFormed) (hi : i ∈ p.invocations)
    (hend : (shownQuery p q).Eligible i → i.startNs ≠ (bounds p).toNs) :
    (initialState p q).includes i = true ↔ (shownQuery p q).Eligible i := by
  obtain ⟨hfrom, hto⟩ := startNs_mem_bounds hi
  obtain ⟨hin, hout⟩ := time_initialState (q := q) hfrom hto
  have hthread : i.tid ∈ (initialState p q).threads ↔ ∀ threads, (shownQuery p q).threads = some threads →
      i.tid ∈ threads := by
    simp only [initialState, shownQuery]
    cases q.threads with
    | none => simp [tid_mem_allThreadIds hw hi]
    | some threads => simp
  simp only [State.includes, Bool.and_eq_true, beq_iff_eq, decide_eq_true_eq, ge_iff_le]
  constructor
  · rintro ⟨⟨⟨⟨⟨hf, hc⟩, hv⟩, ht⟩, hle⟩, hlt⟩
    exact ⟨hf, hc, hv, hthread.mp ht, hin ⟨hle, hlt⟩⟩
  · intro h
    obtain ⟨hle, hlt⟩ := hout h.time (hend h)
    exact ⟨⟨⟨⟨⟨h.function, h.complete⟩, h.valid⟩, hthread.mpr h.thread⟩, hle⟩, hlt⟩

theorem eligible_initialState (hw : p.WellFormed)
    (hend : ∀ i ∈ candidates p (shownQuery p q), i.startNs ≠ (bounds p).toNs) :
    (initialState p q).eligible p = candidates p (shownQuery p q) := by
  have hfilter : p.invocations.filter (initialState p q).includes = p.invocations.filter (shownQuery p q).eligible := by
    refine List.filter_congr fun i hi => Bool.eq_iff_iff.mpr ?_
    rw [eligible_iff, includes_initialState hw hi fun he => hend i (mem_candidates.mpr ⟨hi, he⟩)]
  rw [State.eligible, candidates, hfilter]

/-! ## The order of the population -/

variable {s : State}

theorem durations_sorted : (s.durations p).Pairwise (· ≤ ·) := sorted_durations _

@[simp] theorem length_durations : (s.durations p).length = (s.eligible p).length := List.length_map _

theorem getD_durations {k : Nat} (hk : k < (s.eligible p).length) :
    (s.durations p).getD k 0 = (s.eligible p)[k].durationNs := by
  rw [List.getD_eq_getElem _ _ (by rwa [length_durations])]
  exact List.getElem_map _

theorem eligible_nodup (hn : (p.invocations.map (·.id)).Nodup) : (s.eligible p).Nodup :=
  (sortByKey_perm _ _).nodup_iff.mpr ((List.Nodup.of_map _ hn).filter _)

theorem mem_eligible : i ∈ s.eligible p ↔ i ∈ p.invocations ∧ i.functionId = s.functionId ∧ i.complete = true ∧
    i.valid = true ∧ i.tid ∈ s.threads ∧ s.time.fromNs ≤ i.startNs ∧ (i.startNs : ℚ) < s.time.toNs := by
  simp only [State.eligible, mem_sortByKey, List.mem_filter, State.includes, Bool.and_eq_true, beq_iff_eq,
    decide_eq_true_eq, ge_iff_le, and_assoc]

theorem mem_chosen_iff (hn : (p.invocations.map (·.id)).Nodup) {k : Nat} (hk : k < (s.eligible p).length) :
    (s.eligible p)[k] ∈ (s.calculate p).1.chosen ↔ (s.calculate p).1.rankStart ≤ k ∧ k < (s.calculate p).1.rankEnd :=
  getElem_mem_slice_iff (eligible_nodup hn) hk

theorem chosen_subset : (s.calculate p).1.chosen ⊆ s.eligible p :=
  fun _ hi => List.mem_of_mem_drop (List.mem_of_mem_take hi)

/-- A condition on durations selects the chosen invocations when it holds at the positions between the ranks only. -/
theorem chosen_iff_ranks (hn : (p.invocations.map (·.id)).Nodup) (P : Nat → Prop) :
    (∀ i, i ∈ (s.calculate p).1.chosen ↔ i ∈ s.eligible p ∧ P i.durationNs) ↔
      ∀ k < (s.durations p).length,
        (rankBounds (s.durations p).length (s.syncLatencyWindow (s.durations p)).2.percentile).1 ≤ k ∧
          k < (rankBounds (s.durations p).length (s.syncLatencyWindow (s.durations p)).2.percentile).2 ↔
        P ((s.durations p).getD k 0) := by
  simp only [length_durations]
  constructor
  · intro h k hk
    have hpos := h (s.eligible p)[k]
    rw [mem_chosen_iff hn hk, and_iff_right (List.getElem_mem hk)] at hpos
    rw [getD_durations hk]
    exact hpos
  · intro h i
    constructor
    · intro hi
      obtain ⟨k, hk, rfl⟩ := List.mem_iff_getElem.mp (chosen_subset hi)
      have hpos := h k hk
      rw [getD_durations hk] at hpos
      exact ⟨List.getElem_mem hk, hpos.mp ((mem_chosen_iff hn hk).mp hi)⟩
    · rintro ⟨hi, hP⟩
      obtain ⟨k, hk, rfl⟩ := List.mem_iff_getElem.mp hi
      have hpos := h k hk
      rw [getD_durations hk] at hpos
      exact (mem_chosen_iff hn hk).mpr (hpos.mpr hP)

end SliceProfiler.Viewer
