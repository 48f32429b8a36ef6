import SliceProfiler.Core.Lemmas.Flame

/-!
# Cutting a percentile range into bands
-/

namespace SliceProfiler

open Lib

/-- The query with another percentile range. -/
def Query.band (q : Query) (low high : Nat) : Query := { q with percentile := ⟨low, high⟩ }

/-- The adjacent bands that the cuts `mids` make of `low` to `high`. -/
def bandsBetween (low : Nat) (mids : List Nat) (high : Nat) : List (Nat × Nat) :=
  match mids with
  | [] => [(low, high)]
  | mid :: mids => (low, mid) :: bandsBetween mid mids high

variable {p : Profile} {q : Query}

/-! ## Ranks -/

/-- The rank at which a percentile cuts the population. -/
def rankCut (count percent : Nat) : Nat := (rankBounds count ⟨percent, percent⟩).1

theorem rankCut_mono (count : Nat) {low high : Nat} (h : low ≤ high) :
    rankCut count low ≤ rankCut count high :=
  (rankBounds_le count ⟨low, high⟩ h).1

theorem rankCut_zero (count : Nat) : rankCut count 0 = 0 := by
  simp [rankCut, rankBounds, satMul64, satAdd64, saturatingMul, saturatingAdd, u64Max]

theorem rankCut_hundred {count : Nat} (h : 100 * count < 2 ^ 64) : rankCut count 100 = count := by
  simp only [rankCut, rankBounds, satCeil_eq h (Nat.le_refl 100), Nat.ceilDiv_eq_add_pred_div]
  omega

theorem slice_append {α : Type} (l : List α) {a b c : Nat} (hab : a ≤ b) (hbc : b ≤ c) :
    (l.drop a).take (c - a) = (l.drop a).take (b - a) ++ (l.drop b).take (c - b) := by
  have hc : c - a = (b - a) + (c - b) := by omega
  have hb : b = a + (b - a) := by omega
  rw [hc, List.take_add, List.drop_drop, ← hb]

theorem selected_band (low high : Nat) : selected p (q.band low high) =
    ((candidates p q).drop (rankCut (candidates p q).length low)).take
      (rankCut (candidates p q).length high - rankCut (candidates p q).length low) := rfl

theorem selected_append {low mid high : Nat} (hl : low ≤ mid) (hh : mid ≤ high) :
    selected p (q.band low high) = selected p (q.band low mid) ++ selected p (q.band mid high) := by
  simp only [selected_band]
  exact slice_append _ (rankCut_mono _ hl) (rankCut_mono _ hh)

theorem selected_all (h : 100 * (candidates p q).length < 2 ^ 64) :
    selected p (q.band 0 100) = candidates p q := by
  simp [selected_band, rankCut_zero, rankCut_hundred h]

/-! ## Two bands and a chain of bands -/

/-- No duration in the one result exceeds a duration in the other one. -/
def QueryResult.NotSlowerThan (p : Profile) (lower upper : QueryResult) : Prop :=
  ∀ i ∈ p.invocations, ∀ j ∈ p.invocations, i.id ∈ lower.selectedInvocationIds →
    j.id ∈ upper.selectedInvocationIds → i.durationNs ≤ j.durationNs

/-- The result is made of the results for two adjacent bands. -/
structure QueryResult.SplitsInto (p : Profile) (whole lower upper : QueryResult) : Prop where
  ids : whole.selectedInvocationIds = lower.selectedInvocationIds ++ upper.selectedInvocationIds
  nodup : whole.selectedInvocationIds.Nodup
  durations : QueryResult.NotSlowerThan p lower upper
  cpu : whole.sampledCpuNs = lower.sampledCpuNs + upper.sampledCpuNs
  off : whole.offCpuNs = lower.offCpuNs + upper.offCpuNs
  root : whole.root.valueNs = lower.root.valueNs + upper.root.valueNs
  value : ∀ path, whole.root.valueAt path = lower.root.valueAt path + upper.root.valueAt path

/-- The result is made of the results for a chain of adjacent bands. -/
structure QueryResult.MadeOf (p : Profile) (whole : QueryResult) (bands : List QueryResult) : Prop where
  ids : whole.selectedInvocationIds = bands.flatMap (·.selectedInvocationIds)
  nodup : whole.selectedInvocationIds.Nodup
  durations : bands.Pairwise (QueryResult.NotSlowerThan p)
  cpu : whole.sampledCpuNs = (bands.map (·.sampledCpuNs)).sum
  off : whole.offCpuNs = (bands.map (·.offCpuNs)).sum
  root : whole.root.valueNs = (bands.map (·.root.valueNs)).sum
  value : ∀ path, whole.root.valueAt path = (bands.map (·.root.valueAt path)).sum

theorem QueryResult.MadeOf.single {whole : QueryResult} (h : whole.selectedInvocationIds.Nodup) :
    QueryResult.MadeOf p whole [whole] where
  ids := by simp
  nodup := h
  durations := List.pairwise_singleton _ _
  cpu := by simp
  off := by simp
  root := by simp
  value path := by simp

theorem QueryResult.MadeOf.cons {whole first rest : QueryResult} {bands : List QueryResult}
    (hs : QueryResult.SplitsInto p whole first rest) (h : QueryResult.MadeOf p rest bands) :
    QueryResult.MadeOf p whole (first :: bands) where
  ids := by rw [hs.ids, h.ids, List.flatMap_cons]
  nodup := hs.nodup
  durations := by
    refine List.pairwise_cons.mpr ⟨?_, h.durations⟩
    intro b hb i hi j hj hif hjb
    apply hs.durations i hi j hj hif
    rw [h.ids]
    exact List.mem_flatMap.mpr ⟨b, hb, hjb⟩
  cpu := by rw [hs.cpu, h.cpu, List.map_cons, List.sum_cons]
  off := by rw [hs.off, h.off, List.map_cons, List.sum_cons]
  root := by rw [hs.root, h.root, List.map_cons, List.sum_cons]
  value path := by rw [hs.value, h.value, List.map_cons, List.sum_cons]

theorem selected_ids_nodup (hn : (p.invocations.map (·.id)).Nodup) : ((selected p q).map (·.id)).Nodup :=
  (candidates_ids_nodup hn).sublist (selected_sublist.map _)

/-- A selected invocation of a lower band is not slower than one of an upper band. -/
theorem selected_notSlower (hw : p.WellFormed) {low mid high : Nat} (hl : low ≤ mid) (hh : mid ≤ high)
    {i j : Invocation} (hi : i ∈ selected p (q.band low mid)) (hj : j ∈ selected p (q.band mid high)) :
    i.durationNs ≤ j.durationNs := by
  have hs : (selected p (q.band low high)).Pairwise Invocation.Below :=
    (candidates_strict hw.invocationIds).sublist selected_sublist
  rw [selected_append hl hh] at hs
  rcases (List.pairwise_append.mp hs).2.2 i hi j hj with h | h
  · exact h.le
  · exact h.1.le

/-- A range cut at a percentile is made of its two bands, as long as no sum saturates. -/
theorem splitsInto (hw : p.WellFormed) (hb : (p.samples.map (·.weightNs)).sum < 2 ^ 64)
    {low mid high : Nat} (hl : low ≤ mid) (hh : mid ≤ high) {whole lower upper : QueryResult}
    (h : executeQuery p (q.band low high) = .ok whole) (h₁ : executeQuery p (q.band low mid) = .ok lower)
    (h₂ : executeQuery p (q.band mid high) = .ok upper) : QueryResult.SplitsInto p whole lower upper := by
  have hk := hw.knownStacks
  have hid := hw.invocationIds
  have hsel := (executeQuery_totals hk h).1
  have hsel₁ := (executeQuery_totals hk h₁).1
  have hsel₂ := (executeQuery_totals hk h₂).1
  have hids : whole.selectedInvocationIds = lower.selectedInvocationIds ++ upper.selectedInvocationIds := by
    rw [hsel, hsel₁, hsel₂, selected_append hl hh, List.map_append]
  have hnodup : whole.selectedInvocationIds.Nodup := hsel ▸ selected_ids_nodup hid
  have hdisj : Disjoint lower.selectedInvocationIds.toFinset upper.selectedInvocationIds.toFinset := by
    rw [List.disjoint_toFinset_iff_disjoint]
    rw [hids] at hnodup
    exact List.disjoint_of_nodup_append hnodup
  -- no weight reaches the bound of the counters
  have hmin : ∀ ids c, min (p.weight q ids c) u64Max = p.weight q ids c := by
    intro ids c
    have := weight_le (p := p) (q := q) ids c
    rw [u64Max_eq]; omega
  have hsum : ∀ c, min (p.weight q whole.selectedInvocationIds.toFinset c) u64Max =
      min (p.weight q lower.selectedInvocationIds.toFinset c) u64Max +
        min (p.weight q upper.selectedInvocationIds.toFinset c) u64Max := by
    intro c
    rw [hmin, hmin, hmin, hids, List.toFinset_append, weight_union hdisj]
  have hg := executeQuery_weighs hk h
  have hg₁ := executeQuery_weighs hk h₁
  have hg₂ := executeQuery_weighs hk h₂
  have hvalue : ∀ path, whole.root.valueAt path = lower.root.valueAt path + upper.root.valueAt path := by
    intro path
    rw [hg.value, hg₁.value, hg₂.value]
    exact hsum (p.goesThrough q path)
  refine ⟨hids, hnodup, ?_, ?_, ?_, hvalue [], hvalue⟩
  · intro i hi j hj hil hju
    rw [hsel₁, mem_selected_ids hid hi] at hil
    rw [hsel₂, mem_selected_ids hid hj] at hju
    exact selected_notSlower hw hl hh hil hju
  · rw [hg.cpu, hg₁.cpu, hg₂.cpu]
    exact hsum _
  · rw [hg.off, hg₁.off, hg₂.off]
    exact hsum _

end SliceProfiler
