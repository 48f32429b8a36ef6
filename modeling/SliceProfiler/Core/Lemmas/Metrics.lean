import SliceProfiler.Core.Lemmas.Flame

/-!
# One population under the three metrics
-/

namespace SliceProfiler

open Lib

/-- The query with another metric. -/
def Query.under (q : Query) (metric : Metric) : Query := { q with metric }

variable {p : Profile} {q : Query} {r : QueryResult}

/-! ## Weights -/

theorem contributes_wall (name : Option String) (ids : Finset Nat) (s : ResolvedSample) :
    (q.under .wall).contributes name ids s =
      ((q.under .cpu).contributes name ids s || (q.under .offCpu).contributes name ids s) := by
  change (_ && Metric.includes .wall s.state && s.frames.any (q.startsAt name)) =
    (_ && Metric.includes .cpu s.state && s.frames.any (q.startsAt name) ||
      _ && Metric.includes .offCpu s.state && s.frames.any (q.startsAt name))
  cases s.state <;> simp [Metric.includes]

theorem state_of_contributes {metric : Metric} {name : Option String} {ids : Finset Nat} {s : ResolvedSample}
    (h : (q.under metric).contributes name ids s = true) : metric.includes s.state = true := by
  simp only [Query.contributes, Bool.and_eq_true] at h
  exact h.1.2

theorem not_contributes_both (name : Option String) (ids : Finset Nat) (s : ResolvedSample) :
    ¬ ((q.under .cpu).contributes name ids s = true ∧ (q.under .offCpu).contributes name ids s = true) := by
  rintro ⟨hcpu, hoff⟩
  have hcpu := state_of_contributes hcpu
  have hoff := state_of_contributes hoff
  cases hs : s.state <;> simp [hs, Metric.includes] at hcpu hoff

theorem weight_wall (ids : Finset Nat) (c : ResolvedSample → Bool) :
    p.weight (q.under .wall) ids c = p.weight (q.under .cpu) ids c + p.weight (q.under .offCpu) ids c := by
  simp only [Profile.weight, Profile.contributing, List.filter_filter]
  apply sum_filter_split
  · intro s
    change (c s && (q.under .wall).contributes (q.selectedName p) ids s) = _
    rw [contributes_wall, Bool.and_or_distrib_left]
    rfl
  · simp only [Bool.and_eq_true]
    rintro s ⟨⟨-, hcpu⟩, -, hoff⟩
    exact not_contributes_both _ _ s ⟨hcpu, hoff⟩

theorem weight_of_not_includes (metric : Metric) {state : ExecutionState} (h : metric.includes state = false)
    (ids : Finset Nat) : p.weight (q.under metric) ids (fun s => s.state = state) = 0 := by
  have hnil : (p.contributing (q.under metric) ids).filter (fun s => s.state = state) = [] := by
    simp only [List.filter_eq_nil_iff, decide_eq_true_eq]
    rintro s hs rfl
    rw [state_of_contributes (List.mem_filter.mp hs).2] at h
    cases h
  rw [Profile.weight, hnil]
  rfl

theorem flameReaches_wall (ids : Finset Nat) (path : List String) :
    p.FlameReaches (q.under .wall) ids path ↔
      p.FlameReaches (q.under .cpu) ids path ∨ p.FlameReaches (q.under .offCpu) ids path := by
  rw [Profile.FlameReaches, Profile.FlameReaches, Profile.FlameReaches, ← exists_or]
  refine exists_congr fun s => ?_
  simp only [Profile.contributing, List.mem_filter]
  have hs : (q.under .wall).contributes (q.selectedName p) ids s = true ↔
      (q.under .cpu).contributes (q.selectedName p) ids s = true ∨
        (q.under .offCpu).contributes (q.selectedName p) ids s = true := by
    rw [contributes_wall, Bool.or_eq_true]
  change (_ ∧ (q.under .wall).contributes (q.selectedName p) ids s = true) ∧ _ ↔ _
  rw [hs, and_or_left, or_and_right]
  rfl

/-! ## Results -/

/-- The two results are about the same invocations. -/
structure QueryResult.SamePopulation (r s : QueryResult) : Prop where
  ids : r.selectedInvocationIds = s.selectedInvocationIds
  available : r.availableInvocationCount = s.availableInvocationCount
  latencyMin : r.latencyMinNs = s.latencyMinNs
  latencyMax : r.latencyMaxNs = s.latencyMaxNs
  percentileLow : r.percentileLowValueNs = s.percentileLowValueNs
  percentileHigh : r.percentileHighValueNs = s.percentileHighValueNs

/-- A query that succeeds does so under every metric, for the same invocations. -/
theorem executeQuery_under (hk : p.KnownStacks) (h : executeQuery p q = .ok r) (metric : Metric) :
    ∃ s, executeQuery p (q.under metric) = .ok s ∧ r.SamePopulation s := by
  simp only [executeQuery, sampleTotals_eq hk.ids hk.known, bind_eq_ok] at h
  obtain ⟨u, hpct, v, htime, t, -, hr⟩ := h
  cases hr
  have hpct' : (q.under metric).percentile.validate = .ok u := hpct
  have htime' : checkOption (fun time : TimeRange => ensure (time.fromNs < time.toNs)
      (QueryError.invalidTimeRange time)) (q.under metric).time = .ok v := htime
  simp only [executeQuery, sampleTotals_eq hk.ids hk.known, hpct', htime', ok_bind]
  exact ⟨_, rfl, rfl, rfl, rfl, rfl, rfl, rfl⟩

/-- The results of one query under the three metrics. -/
structure QueryResult.Decomposes (wall cpu off : QueryResult) : Prop where
  cpuPopulation : wall.SamePopulation cpu
  offPopulation : wall.SamePopulation off
  sampledCpu : wall.sampledCpuNs = cpu.sampledCpuNs
  offCpu : wall.offCpuNs = off.offCpuNs
  path : ∀ path, (wall.root.at path).isSome = true ↔
    (cpu.root.at path).isSome = true ∨ (off.root.at path).isSome = true
  value : ∀ path, wall.root.valueAt path = satAdd64 (cpu.root.valueAt path) (off.root.valueAt path)

theorem at_isSome_iff (hk : p.KnownStacks) (h : executeQuery p q = .ok r) (path : List String) :
    (r.root.at path).isSome = true ↔ path = [] ∨ p.FlameReaches q r.selectedInvocationIds.toFinset path := by
  rw [← Option.isSome_map (f := FlameNode.valueNs), (executeQuery_totals hk h).2.1, at_finish_totals,
    ← reached_entries]
  split
  · rename_i hr; simp [hr]
  · rename_i hr; simp [hr]

theorem decomposes (hk : p.KnownStacks) {wall cpu off : QueryResult}
    (hw : executeQuery p (q.under .wall) = .ok wall) (hc : executeQuery p (q.under .cpu) = .ok cpu)
    (ho : executeQuery p (q.under .offCpu) = .ok off) : wall.Decomposes cpu off := by
  have hwc : wall.SamePopulation cpu := by
    obtain ⟨s, hs, hp⟩ := executeQuery_under hk hw .cpu
    cases hc.symm.trans hs
    exact hp
  have hwo : wall.SamePopulation off := by
    obtain ⟨s, hs, hp⟩ := executeQuery_under hk hw .offCpu
    cases ho.symm.trans hs
    exact hp
  have gw := executeQuery_weighs hk hw
  have gc := executeQuery_weighs hk hc
  have go := executeQuery_weighs hk ho
  rw [← hwc.ids] at gc
  rw [← hwo.ids] at go
  refine ⟨hwc, hwo, ?_, ?_, ?_, ?_⟩
  · rw [gw.cpu, gc.cpu, weight_wall, weight_of_not_includes .offCpu rfl, Nat.add_zero]
  · rw [gw.off, go.off, weight_wall, weight_of_not_includes .cpu rfl, Nat.zero_add]
  · intro path
    rw [at_isSome_iff hk hw, at_isSome_iff hk hc, at_isSome_iff hk ho, ← hwc.ids, ← hwo.ids,
      flameReaches_wall, ← or_or_distrib_left]
  · intro path
    have hpath : ∀ metric, p.goesThrough (q.under metric) path = p.goesThrough q path := fun _ => rfl
    rw [gw.value, gc.value, go.value, hpath, hpath, hpath, weight_wall, satAdd64, saturatingAdd]
    omega

end SliceProfiler
