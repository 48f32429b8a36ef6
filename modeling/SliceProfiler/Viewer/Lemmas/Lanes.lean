import SliceProfiler.Viewer.Drawing
import SliceProfiler.Viewer.Lemmas.Eligible
import SliceProfiler.Viewer.Lemmas.Histogram
import SliceProfiler.Viewer.Lemmas.Timeline

/-!
# The drawing of the timeline
-/

namespace SliceProfiler.Viewer

open Lib

variable {p : Profile} {s : State} {width : ℚ} {tid row bucket : Nat}

/-! ## Positions -/

theorem mem_times_bounds {t : Nat} (ht : t ∈ times p) : (bounds p).fromNs ≤ t ∧ t ≤ (bounds p).toNs := by
  constructor
  · cases h : (times p).min? with
    | none => rw [List.min?_eq_none_iff.mp h] at ht; cases ht
    | some m =>
        simp only [bounds, h, Option.getD_some]
        exact (List.min?_eq_some_iff.mp h).2 _ ht
  · cases h : (times p).max? with
    | none => rw [List.max?_eq_none_iff.mp h] at ht; cases ht
    | some m =>
        simp only [bounds, h, Option.getD_some]
        exact ((List.max?_eq_some_iff.mp h).2 _ ht).trans (le_max_right _ _)

theorem timestampNs_mem_bounds {x : Sample} (hx : x ∈ p.samples) :
    (bounds p).fromNs ≤ x.timestampNs ∧ x.timestampNs ≤ (bounds p).toNs :=
  mem_times_bounds (List.mem_append_right _ (List.mem_map_of_mem hx))

theorem endNs_mem_bounds {i : Invocation} (hi : i ∈ p.invocations) :
    (bounds p).fromNs ≤ i.endNs ∧ i.endNs ≤ (bounds p).toNs :=
  mem_times_bounds (List.mem_append_left _ (List.mem_flatMap.mpr ⟨i, hi, by simp⟩))

theorem one_le_captureNs (p : Profile) : 1 ≤ captureNs p := by
  rw [captureNs]
  linarith [one_le_capture p]

theorem position_eq (p : Profile) (value : ℚ) : position p value = (value - (bounds p).fromNs) / captureNs p := by
  rw [position, max_eq_right (one_le_captureNs p)]

/-- A press at a position reads the time that is drawn there. -/
theorem timelineValue_position (p : Profile) (value : ℚ) : timelineValue p (position p value) = clampTime p value := by
  have hpos := one_pos.trans_le (one_le_captureNs p)
  have hone := one_le_capture p
  rw [timelineValue, position_eq, clampTime, ← captureNs]
  rcases le_total value (bounds p).fromNs with hlow | hlow
  · rw [max_eq_left, min_eq_right (by linarith), max_eq_left hlow, zero_mul, add_zero]
    exact (min_le_right _ _).trans (div_nonpos_of_nonpos_of_nonneg (by linarith) hpos.le)
  · rcases le_total value (bounds p).toNs with hhigh | hhigh
    · have h0 : 0 ≤ (value - (bounds p).fromNs) / captureNs p := div_nonneg (by linarith) hpos.le
      have h1 : (value - (bounds p).fromNs) / captureNs p ≤ 1 := (div_le_one hpos).mpr (by rw [captureNs]; linarith)
      rw [min_eq_right h1, max_eq_right h0, div_mul_cancel₀ _ hpos.ne', min_eq_right hhigh, max_eq_right hlow,
        add_sub_cancel]
    · have h1 : 1 ≤ (value - (bounds p).fromNs) / captureNs p := (one_le_div hpos).mpr (by rw [captureNs]; linarith)
      rw [min_eq_left h1, max_eq_right zero_le_one, one_mul, min_eq_left hhigh, max_eq_right (by linarith), captureNs,
        add_sub_cancel]

theorem position_bounds {value : ℚ} (hlow : ((bounds p).fromNs : ℚ) ≤ value) (hhigh : value ≤ (bounds p).toNs) :
    0 ≤ position p value ∧ position p value ≤ 1 := by
  have hpos := one_pos.trans_le (one_le_captureNs p)
  rw [position_eq]
  exact ⟨div_nonneg (by linarith) hpos.le, (div_le_one hpos).mpr (by rw [captureNs]; linarith)⟩

theorem clampTime_of_mem {value : ℚ} (hlow : ((bounds p).fromNs : ℚ) ≤ value) (hhigh : value ≤ (bounds p).toNs) :
    clampTime p value = value := by
  rw [clampTime, min_eq_right hhigh, max_eq_right hlow]

theorem timelineWidth_pos (clientWidth : Nat) (timelineScale : ℚ) : 0 < timelineWidth clientWidth timelineScale :=
  lt_max_of_lt_left (by norm_num)

theorem mem_rows : (tid, row) ∈ (allThreadIds p).zipIdx ↔ (allThreadIds p)[row]? = some tid :=
  List.mem_zipIdx_iff_getElem?

/-! ## Weights -/

/-- The bucket and the weight of the samples of a thread. -/
def weightsOf (p : Profile) (l : List Sample) (tid : Nat) : List (ℤ × Nat) :=
  (l.filter (·.tid = tid)).map fun x => (densityBucket p x.timestampNs, x.weightNs)

theorem lookup_samplesByThread (p : Profile) (l : List Sample) (tid : Nat) :
    lookupKey tid (l.foldl (fun m s => upsertLast s.tid
      (fun density => addAt (density.getD (List.replicate 80 0)) (densityBucket p s.timestampNs, s.weightNs)) m) []) =
      if weightsOf p l tid = [] then none else some (addInto 80 (weightsOf p l tid)) := by
  induction l using List.reverseRecOn with
  | nil => rfl
  | append_singleton l x ih =>
      rw [List.foldl_concat, lookupKey_upsertLast]
      by_cases hx : tid = x.tid
      · subst hx
        have hconcat : weightsOf p (l ++ [x]) x.tid =
            weightsOf p l x.tid ++ [(densityBucket p x.timestampNs, x.weightNs)] := by
          simp [weightsOf, List.filter_append]
        have hadd : addInto 80 (weightsOf p l x.tid ++ [(densityBucket p x.timestampNs, x.weightNs)]) =
            addAt (addInto 80 (weightsOf p l x.tid)) (densityBucket p x.timestampNs, x.weightNs) := List.foldl_concat ..
        have hne : weightsOf p l x.tid ++ [(densityBucket p x.timestampNs, x.weightNs)] ≠ [] := by simp
        rw [if_pos rfl, ih, hconcat, if_neg hne, hadd]
        split
        · rename_i hnil
          rw [hnil]
          rfl
        · rfl
      · have hsame : weightsOf p (l ++ [x]) tid = weightsOf p l tid := by
          simp [weightsOf, List.filter_append, Ne.symm hx]
        rw [if_neg hx, ih, hsame]

theorem densityBucket_bounds (p : Profile) (timestampNs : Nat) :
    0 ≤ densityBucket p timestampNs ∧ densityBucket p timestampNs < 80 := by
  have := min_le_left 79 ⌊position p timestampNs * 80⌋
  unfold densityBucket
  omega

theorem weightIn_eq (p : Profile) (tid bucket : Nat) :
    weightIn p tid bucket = (((weightsOf p p.samples tid).filter fun x => x.1 = (bucket : ℤ)).map (·.2)).sum := by
  simp only [weightIn, weightsOf, List.filter_map, List.map_map, List.filter_filter]
  congr 1
  congr 1
  refine List.filter_congr fun x _ => ?_
  simp [Bool.and_comm]

theorem addInto_weightsOf (p : Profile) (tid : Nat) :
    addInto 80 (weightsOf p p.samples tid) = (List.range 80).map (weightIn p tid) := by
  refine List.ext_getElem? fun k => ?_
  by_cases hk : k < 80
  · rw [getElem?_addInto hk, List.getElem?_map, List.getElem?_range hk, Option.map_some, weightIn_eq]
  · rw [List.getElem?_eq_none (by rw [length_addInto]; omega), List.getElem?_eq_none (by simp; omega)]

theorem weightIn_of_nil (h : weightsOf p p.samples tid = []) (bucket : Nat) : weightIn p tid bucket = 0 := by
  rw [weightIn_eq, h]
  rfl

/-- The weights of a thread, where there are any. -/
theorem mem_density {value : Nat} : (value, bucket) ∈ ((lookupKey tid (samplesByThread p)).getD []).zipIdx ↔
    weightsOf p p.samples tid ≠ [] ∧ bucket < 80 ∧ value = weightIn p tid bucket := by
  rw [List.mem_zipIdx_iff_getElem?, samplesByThread, lookup_samplesByThread]
  split
  · rename_i hnil
    simp [hnil]
  · rename_i hne
    rw [Option.getD_some, addInto_weightsOf, List.getElem?_map]
    by_cases hb : bucket < 80
    · simp [hb, hne, eq_comm]
    · rw [List.getElem?_eq_none (by simp; omega)]
      simp [hb]

theorem sum_weightIn (p : Profile) (tid : Nat) : ((List.range 80).map (weightIn p tid)).sum =
    ((p.samples.filter (·.tid = tid)).map (·.weightNs)).sum := by
  have hbuckets : ∀ x ∈ weightsOf p p.samples tid, 0 ≤ x.1 ∧ x.1 < (80 : Nat) := by
    intro x hx
    obtain ⟨y, -, rfl⟩ := List.mem_map.mp hx
    exact densityBucket_bounds p y.timestampNs
  rw [← addInto_weightsOf, sum_addInto hbuckets, weightsOf, List.map_map]
  rfl

theorem weightIn_le_maxDensity (hb : bucket < 80) : (weightIn p tid bucket : ℚ) ≤ maxDensity p := by
  by_cases hnil : weightsOf p p.samples tid = []
  · rw [weightIn_of_nil hnil]
    exact (Nat.cast_nonneg 0).trans' (by norm_num) |>.trans (le_trans zero_le_one (le_max_left _ _))
  · have hlookup : lookupKey tid (samplesByThread p) = some ((List.range 80).map (weightIn p tid)) := by
      rw [samplesByThread, lookup_samplesByThread, if_neg hnil, addInto_weightsOf]
    have hmem : weightIn p tid bucket ∈ (samplesByThread p).flatMap (·.2) :=
      List.mem_flatMap.mpr ⟨_, lookupKey_mem hlookup, List.mem_map_of_mem (List.mem_range.mpr hb)⟩
    exact (Nat.cast_le.mpr (le_max?_of_mem hmem)).trans (le_max_right _ _)

theorem mem_timelineMarks {m : TimelineMark} : m ∈ timelineMarks p width tid row ↔
    ∃ bucket < 80, weightIn p tid bucket ≠ 0 ∧ m = timelineMark p width row bucket (weightIn p tid bucket) := by
  simp only [timelineMarks, List.mem_map, List.mem_filter, Prod.exists, mem_density, decide_eq_true_eq]
  constructor
  · rintro ⟨value, bucket, ⟨⟨-, hb, rfl⟩, h0⟩, rfl⟩
    exact ⟨bucket, hb, h0, rfl⟩
  · rintro ⟨bucket, hb, h0, rfl⟩
    exact ⟨_, bucket, ⟨⟨fun hnil => h0 (weightIn_of_nil hnil bucket), hb, rfl⟩, h0⟩, rfl⟩

/-- A sample is in the part of its time; the last part has the end of the capture, too. -/
theorem densityBucket_within {x : Sample} (hx : x ∈ p.samples) :
    (densityBucket p x.timestampNs : ℚ) ≤ position p x.timestampNs * 80 ∧
    (x.timestampNs < (bounds p).toNs → position p x.timestampNs * 80 < densityBucket p x.timestampNs + 1) := by
  obtain ⟨hlow, hhigh⟩ := timestampNs_mem_bounds hx
  obtain ⟨h0, -⟩ := position_bounds (p := p) (Nat.cast_le.mpr hlow) (Nat.cast_le.mpr hhigh)
  have hfloor : 0 ≤ ⌊position p x.timestampNs * 80⌋ := Int.floor_nonneg.mpr (by linarith)
  have hbucket : densityBucket p x.timestampNs = min 79 ⌊position p x.timestampNs * 80⌋ :=
    max_eq_right (le_min (by norm_num) hfloor)
  rw [hbucket]
  refine ⟨(Int.cast_le.mpr (min_le_right _ _)).trans (Int.floor_le _), fun hlt => ?_⟩
  have hpos := one_pos.trans_le (one_le_captureNs p)
  have hlt' : (x.timestampNs : ℚ) < (bounds p).toNs := by exact_mod_cast hlt
  have hlast : position p x.timestampNs * 80 < 80 := by
    rw [position_eq, mul_lt_iff_lt_one_left (by norm_num), div_lt_one hpos, captureNs]
    linarith
  have hnext : ⌊position p x.timestampNs * 80⌋ ≤ 79 := by
    have := Int.floor_lt.mpr (by exact_mod_cast hlast : position p x.timestampNs * 80 < ((80 : ℤ) : ℚ))
    omega
  rw [min_eq_right hnext]
  exact Int.lt_floor_add_one _

theorem drawTimeline_weighs (chosen : List Invocation) (clientWidth : Nat) (timelineScale : ℚ) :
    (drawTimeline p s chosen clientWidth timelineScale).Weighs p := by
  have hmem : ∀ m, m ∈ (drawTimeline p s chosen clientWidth timelineScale).marks ↔ ∃ tid row bucket,
      (allThreadIds p)[row]? = some tid ∧ bucket < 80 ∧ weightIn p tid bucket ≠ 0 ∧
        m = timelineMark p (timelineWidth clientWidth timelineScale) row bucket (weightIn p tid bucket) := by
    intro m
    simp only [drawTimeline, List.mem_flatMap, Prod.exists, mem_rows, mem_timelineMarks]
    constructor
    · rintro ⟨tid, row, hrow, bucket, hb, h0, rfl⟩
      exact ⟨tid, row, bucket, hrow, hb, h0, rfl⟩
    · rintro ⟨tid, row, bucket, hrow, hb, h0, rfl⟩
      exact ⟨tid, row, hrow, bucket, hb, h0, rfl⟩
  refine ⟨fun row tid hrow bucket hb => ?_, fun m hm => ?_, sum_weightIn p, fun x hx => densityBucket_within hx⟩
  · constructor
    · rintro ⟨m, hm, rfl, rfl⟩
      obtain ⟨tid', row', bucket', hrow', -, h0, rfl⟩ := (hmem m).mp hm
      have htid : tid' = tid := Option.some.inj (hrow'.symm.trans hrow)
      rwa [htid] at h0
    · intro h0
      exact ⟨_, (hmem _).mpr ⟨tid, row, bucket, hrow, hb, h0, rfl⟩, rfl, rfl⟩
  · obtain ⟨tid, row, bucket, hrow, hb, h0, rfl⟩ := (hmem m).mp hm
    have hpos : (0 : ℚ) < weightIn p tid bucket := Nat.cast_pos.mpr (Nat.pos_of_ne_zero h0)
    have hmax : 0 < maxDensity p := one_pos.trans_le (le_max_left _ _)
    have hshare : (weightIn p tid bucket : ℚ) / maxDensity p ≤ 1 := (div_le_one hmax).mpr (weightIn_le_maxDensity hb)
    have hshare' : 0 < (weightIn p tid bucket : ℚ) / maxDensity p := div_pos hpos hmax
    refine ⟨tid, hrow, rfl, ?_, ?_⟩
    · simp only [timelineMark]
      linarith
    · simp only [timelineMark]
      linarith

/-! ## Bars -/

theorem bars_drawTimeline {b : TimelineBar} {chosen : List Invocation} {clientWidth : Nat} {timelineScale : ℚ}
    (hb : b ∈ (drawTimeline p s chosen clientWidth timelineScale).bars) :
    (allThreadIds p)[b.row]? = some b.invocation.tid ∧ b.invocation ∈ p.invocations ∧
      b.x = position p b.invocation.startNs * timelineWidth clientWidth timelineScale ∧ b.y = laneY b.row + 4 ∧
      b.width = min (max 2 (((b.invocation.endNs : ℚ) - b.invocation.startNs) / captureNs p *
        timelineWidth clientWidth timelineScale)) (timelineWidth clientWidth timelineScale) ∧
      b.height = 15 := by
  simp only [drawTimeline, List.mem_flatMap, Prod.exists, mem_rows, timelineBars, List.mem_map, invocationsByThread,
    List.mem_filter, Bool.and_eq_true, decide_eq_true_eq] at hb
  obtain ⟨tid, row, hrow, i, ⟨hi, -, rfl⟩, rfl⟩ := hb
  refine ⟨hrow, hi, rfl, rfl, ?_, by norm_num⟩
  dsimp only
  rw [max_eq_right (one_le_captureNs p)]

theorem invocations_drawTimeline (hw : p.WellFormed) (chosen : List Invocation) (clientWidth : Nat)
    (timelineScale : ℚ) :
    ((drawTimeline p s chosen clientWidth timelineScale).bars.map (·.invocation)).Perm
      (p.invocations.filter fun i => i.complete && i.valid) := by
  have hlist : (drawTimeline p s chosen clientWidth timelineScale).bars.map (·.invocation) =
      (allThreadIds p).flatMap fun tid => (p.invocations.filter fun i => i.complete && i.valid).filter fun i =>
        decide (i.tid = tid) := by
    simp only [drawTimeline, List.map_flatMap, timelineBars, List.map_map, invocationsByThread, List.filter_filter]
    conv_rhs => rw [← List.zipIdx_map_fst 0 (allThreadIds p), List.flatMap_map]
    refine List.flatMap_congr fun x _ => ?_
    obtain ⟨tid, row⟩ := x
    rw [show (TimelineBar.invocation ∘ _) = id from rfl, List.map_id]
    refine List.filter_congr fun i _ => ?_
    rw [Bool.and_comm]
  have hnodup : (allThreadIds p).Nodup := by
    unfold allThreadIds
    split
    · exact List.nodup_dedup _
    · exact hw.threadIds
  rw [hlist]
  exact perm_groups hnodup fun i hi => tid_mem_allThreadIds hw (List.mem_filter.mp hi).1

theorem drawTimeline_bars (hw : p.WellFormed) (chosen : List Invocation) (clientWidth : Nat) (timelineScale : ℚ) :
    (drawTimeline p s chosen clientWidth timelineScale).Bars p := by
  have hwidth := timelineWidth_pos clientWidth timelineScale
  have hleast : 240 ≤ timelineWidth clientWidth timelineScale := le_max_left _ _
  have hpos := one_pos.trans_le (one_le_captureNs p)
  refine ⟨invocations_drawTimeline hw chosen clientWidth timelineScale, fun b hb => (bars_drawTimeline hb).1,
    fun b hb => ?_, fun b hb => ?_, fun b hb => ?_, fun b hb hwide => ?_⟩
  · obtain ⟨hrow, -, -, hy, -, hheight⟩ := bars_drawTimeline hb
    have hlt : b.row < (allThreadIds p).length := (List.getElem?_eq_some_iff.mp hrow).1
    have hle : ((b.row : ℚ) + 1) ≤ ((allThreadIds p).zipIdx.length : ℚ) := by
      rw [List.length_zipIdx]
      exact_mod_cast hlt
    have htall : 24 + ((allThreadIds p).zipIdx.length : ℚ) * 27 + 10 ≤
        (drawTimeline p s chosen clientWidth timelineScale).height := le_max_right _ _
    rw [hy, hheight]
    refine ⟨by linarith, by linarith, ?_⟩
    rw [laneY]
    linarith
  · obtain ⟨-, hi, hx, -, -, -⟩ := bars_drawTimeline hb
    obtain ⟨hlow, hhigh⟩ := startNs_mem_bounds hi
    have hlow' : ((bounds p).fromNs : ℚ) ≤ b.invocation.startNs := Nat.cast_le.mpr hlow
    have hhigh' : (b.invocation.startNs : ℚ) ≤ (bounds p).toNs := Nat.cast_le.mpr hhigh
    obtain ⟨h0, h1⟩ := position_bounds hlow' hhigh'
    rw [hx]
    refine ⟨mul_nonneg h0 hwidth.le, mul_le_of_le_one_left hwidth.le h1, ?_⟩
    rw [drawTimeline, mul_div_cancel_right₀ _ hwidth.ne', timelineValue_position, clampTime_of_mem hlow' hhigh']
  · obtain ⟨-, -, -, -, hbar, -⟩ := bars_drawTimeline hb
    rw [hbar]
    exact ⟨le_min (le_max_left _ _) (by linarith), min_le_right _ _⟩
  · obtain ⟨-, hi, hx, -, hbar, -⟩ := bars_drawTimeline hb
    obtain ⟨hlow, hhigh⟩ := endNs_mem_bounds hi
    have hstart : ((bounds p).fromNs : ℚ) ≤ b.invocation.startNs := Nat.cast_le.mpr (startNs_mem_bounds hi).1
    have hlow' : ((bounds p).fromNs : ℚ) ≤ b.invocation.endNs := Nat.cast_le.mpr hlow
    have hhigh' : (b.invocation.endNs : ℚ) ≤ (bounds p).toNs := Nat.cast_le.mpr hhigh
    have hshare : ((b.invocation.endNs : ℚ) - b.invocation.startNs) / captureNs p ≤ 1 :=
      (div_le_one hpos).mpr (by rw [captureNs]; linarith)
    have hle := mul_le_of_le_one_left hwidth.le hshare
    have hmax : 2 < max 2 (((b.invocation.endNs : ℚ) - b.invocation.startNs) / captureNs p *
        timelineWidth clientWidth timelineScale) := (hbar ▸ hwide).trans_le (min_le_left _ _)
    have htwo := (lt_max_iff.mp hmax).resolve_left (lt_irrefl 2)
    -- a bar that is wider than the least width is as wide as its share of the capture
    have hend : b.x + b.width = position p b.invocation.endNs * timelineWidth clientWidth timelineScale := by
      rw [hx, hbar, max_eq_right htwo.le, min_eq_left hle, position_eq, position_eq, ← add_mul, ← add_div]
      congr 2
      ring
    obtain ⟨-, h1⟩ := position_bounds hlow' hhigh'
    rw [hend]
    refine ⟨mul_le_of_le_one_left hwidth.le h1, ?_⟩
    rw [drawTimeline, mul_div_cancel_right₀ _ hwidth.ne', timelineValue_position, clampTime_of_mem hlow' hhigh']

/-! ## The selection -/

theorem selected_drawTimeline {b : TimelineBar} {chosen : List Invocation} {clientWidth : Nat} {timelineScale : ℚ}
    (hb : b ∈ (drawTimeline p s chosen clientWidth timelineScale).bars) :
    b.selected = decide (b.invocation.id ∈ chosen.map (·.id)) := by
  obtain ⟨⟨tid, row⟩, -, hb⟩ := List.mem_flatMap.mp hb
  obtain ⟨i, -, rfl⟩ := List.mem_map.mp hb
  rfl

theorem chosen_nodup (hw : p.WellFormed) : (s.calculate p).1.chosen.Nodup :=
  (eligible_nodup hw.invocationIds).sublist ((List.take_sublist _ _).trans (List.drop_sublist _ _))

theorem drawTimeline_selects (hw : p.WellFormed) (clientWidth : Nat) (timelineScale : ℚ) :
    (drawTimeline p (s.calculate p).2 (s.calculate p).1.chosen clientWidth timelineScale).Selects p s
      (s.calculate p).1.chosen := by
  have hwidth := timelineWidth_pos clientWidth timelineScale
  have hpos := one_pos.trans_le (one_le_captureNs p)
  refine ⟨?_, ?_, ?_, ?_⟩
  · have hbars :=
        invocations_drawTimeline (s := (s.calculate p).2) hw (s.calculate p).1.chosen clientWidth timelineScale
    have hfilter : ((drawTimeline p (s.calculate p).2 (s.calculate p).1.chosen clientWidth timelineScale).bars.filter
        (·.selected)).map (·.invocation) = ((drawTimeline p (s.calculate p).2 (s.calculate p).1.chosen clientWidth
          timelineScale).bars.map (·.invocation)).filter fun i => i.id ∈ (s.calculate p).1.chosen.map (·.id) := by
      rw [List.filter_map]
      congr 1
      exact List.filter_congr fun b hb => selected_drawTimeline hb
    rw [hfilter]
    refine (hbars.filter _).trans ((List.perm_ext_iff_of_nodup ?_ (chosen_nodup hw)).mpr fun i => ?_)
    · exact ((List.Nodup.of_map _ hw.invocationIds).filter _).filter _
    · simp only [List.mem_filter, Bool.and_eq_true, decide_eq_true_eq, List.mem_map]
      constructor
      · rintro ⟨⟨hi, -⟩, j, hj, he⟩
        have hj' := (mem_eligible.mp (chosen_subset hj)).1
        rwa [List.inj_on_of_nodup_map hw.invocationIds hi hj' he.symm]
      · intro hi
        obtain ⟨hmem, -, hc, hv, -⟩ := mem_eligible.mp (chosen_subset hi)
        exact ⟨⟨hmem, hc, hv⟩, i, hi, rfl⟩
  · rw [drawTimeline, mul_div_cancel_right₀ _ hwidth.ne', timelineValue_position, calculate_time]
  · rw [drawTimeline, mul_div_cancel_right₀ _ hwidth.ne', timelineValue_position, calculate_time]
  · intro x hx
    obtain ⟨ratio, hratio, rfl⟩ := List.mem_map.mp hx
    have hratios : ∀ ratio ∈ [0, 1 / 4, 1 / 2, 3 / 4, (1 : ℚ)], 0 ≤ ratio ∧ ratio ≤ 1 := by decide +kernel
    obtain ⟨h0, h1⟩ := hratios ratio hratio
    rw [drawTimeline, mul_div_cancel_right₀ _ hwidth.ne', timelineValue, min_eq_right h1, max_eq_right h0]
    simp only [captureNs, mul_comm ratio]

end SliceProfiler.Viewer
