import SliceProfiler.Cli.Discover
import SliceProfiler.Core.Lemmas.Validate
import SliceProfiler.Lib.Paths

/-!
# The sums of the discovery
-/

namespace SliceProfiler

open Lib

variable {p : Profile} {metric : Metric} {label : String} {s : Sample}

theorem inclusive_eq (p : Profile) (metric : Metric) : p.inclusive metric = tallyAll u64Max (p.additions metric) := by
  rw [tallyAll, Profile.additions, List.foldl_flatMap]
  refine congrArg (fun f => p.samples.foldl f []) (funext fun inclusive => funext fun s => ?_)
  unfold addSample Profile.labelsOf addFrames
  cases metric.includes s.state with
  | false => rfl
  | true =>
      cases (Map.ofList (p.stacks.map fun k => (k.id, k))).lookup s.stackId with
      | none => rfl
      | some stack => simp only [↓reduceIte, List.foldl_map]

theorem inclusiveTime_eq (p : Profile) (metric : Metric) (label : String) :
    p.inclusiveTime metric label = tallied u64Max (p.additions metric) label := by
  rw [Profile.inclusiveTime, inclusive_eq]
  rfl

/-! ## The exact sums -/

theorem totalAt_map (labels : List String) (w : Nat) :
    totalAt label (labels.map fun l => (l, w)) = w * labels.count label := by
  induction labels with
  | nil => rfl
  | cons l labels ih =>
      rw [List.map_cons, ← List.singleton_append, totalAt_append, totalAt_singleton, ih, List.count_cons, Nat.mul_add]
      by_cases h : l = label <;> simp [h, Nat.add_comm]

/-- The weight that a sample adds to a label. -/
def Profile.adds (p : Profile) (metric : Metric) (label : String) (s : Sample) : Nat :=
  if metric.includes s.state then s.weightNs * (p.labelsOf s).count label else 0

/-- The weight that a sample should add to a label. -/
def Profile.shouldAdd (p : Profile) (metric : Metric) (label : String) (s : Sample) : Nat :=
  if metric.includes s.state && p.shows label s then s.weightNs else 0

theorem totalAt_additions (p : Profile) (metric : Metric) (label : String) :
    totalAt label (p.additions metric) = (p.samples.map (p.adds metric label)).sum := by
  rw [Profile.additions]
  induction p.samples with
  | nil => rfl
  | cons s samples ih =>
      rw [List.flatMap_cons, totalAt_append, ih, List.map_cons, List.sum_cons, Profile.adds]
      cases metric.includes s.state with
      | false => rfl
      | true => simp only [↓reduceIte, totalAt_map]

theorem trueInclusiveTime_eq (p : Profile) (metric : Metric) (label : String) :
    p.trueInclusiveTime metric label = (p.samples.map (p.shouldAdd metric label)).sum :=
  (sum_ite _ _ _).symm

theorem labelsOf_eq (hn : (p.stacks.map (·.id)).Nodup) {k : Stack} (hk : k ∈ p.stacks) (hid : k.id = s.stackId) :
    p.labelsOf s = k.frames.map (·.label) := by
  have hkeys : ((p.stacks.map fun k => (k.id, k)).map Prod.fst).Nodup := by rwa [List.map_map]
  rw [Profile.labelsOf, (Map.lookup_ofList hkeys).mpr (List.mem_map.mpr ⟨k, hk, by rw [hid]⟩)]

theorem mem_labelsOf (hn : (p.stacks.map (·.id)).Nodup) : label ∈ p.labelsOf s ↔ p.shows label s = true := by
  have hkeys : ((p.stacks.map fun k => (k.id, k)).map Prod.fst).Nodup := by rwa [List.map_map]
  simp only [Profile.shows, List.any_eq_true, Bool.and_eq_true, beq_iff_eq]
  constructor
  · intro h
    unfold Profile.labelsOf at h
    split at h
    · rename_i k hk
      obtain ⟨k', hk', heq⟩ := List.mem_map.mp ((Map.lookup_ofList hkeys).mp hk)
      obtain ⟨hid, rfl⟩ := Prod.mk.inj heq
      obtain ⟨f, hf, hl⟩ := List.mem_map.mp h
      exact ⟨k', hk', hid, f, hf, hl⟩
    · cases h
  · rintro ⟨k, hk, hid, f, hf, hl⟩
    rw [labelsOf_eq hn hk hid]
    exact List.mem_map.mpr ⟨f, hf, hl⟩

theorem shouldAdd_le_adds (hn : (p.stacks.map (·.id)).Nodup) : p.shouldAdd metric label s ≤ p.adds metric label s := by
  unfold Profile.shouldAdd Profile.adds
  cases metric.includes s.state with
  | false => exact Nat.le_refl _
  | true =>
      cases hs : p.shows label s with
      | false => exact Nat.zero_le _
      | true =>
          have hpos : 0 < (p.labelsOf s).count label := List.count_pos_iff.mpr ((mem_labelsOf hn).mpr hs)
          exact Nat.le_mul_of_pos_right _ hpos

/-- A sample adds what it should to all labels when it has no weight or no label twice. -/
theorem adds_eq_shouldAdd_iff (hn : (p.stacks.map (·.id)).Nodup) :
    (∀ label, p.adds metric label s = p.shouldAdd metric label s) ↔
      (metric.includes s.state = true → 0 < s.weightNs → (p.labelsOf s).Nodup) := by
  unfold Profile.shouldAdd Profile.adds
  cases metric.includes s.state with
  | false => simp
  | true =>
      simp only [↓reduceIte, Bool.true_and, forall_const]
      constructor
      · intro h hw
        refine List.nodup_iff_count_le_one.mpr fun label => ?_
        have hl := h label
        split at hl
        · exact (Nat.eq_of_mul_eq_mul_left hw (hl.trans (Nat.mul_one _).symm)).le
        · exact ((Nat.mul_eq_zero.mp hl).resolve_left hw.ne').le.trans (Nat.zero_le 1)
      · intro h label
        rcases Nat.eq_zero_or_pos s.weightNs with hw | hw
        · simp [hw]
        · cases hs : p.shows label s with
          | true => simp [List.count_eq_one_of_mem (h hw) ((mem_labelsOf hn).mpr hs)]
          | false =>
              have hno : label ∉ p.labelsOf s := fun hm => by
                rw [mem_labelsOf hn, hs] at hm
                cases hm
              simp [List.count_eq_zero_of_not_mem hno]

/-- The sums are exact when no included sample with a weight repeats a label: no sample adds less than it should, so
equal sums have equal terms. -/
theorem totalAt_additions_iff (hn : (p.stacks.map (·.id)).Nodup) :
    (∀ label, totalAt label (p.additions metric) = p.trueInclusiveTime metric label) ↔
      ∀ s ∈ p.samples, metric.includes s.state = true → 0 < s.weightNs → (p.labelsOf s).Nodup := by
  have hterms : ∀ label, totalAt label (p.additions metric) = p.trueInclusiveTime metric label ↔
      ∀ s ∈ p.samples, p.adds metric label s = p.shouldAdd metric label s := by
    intro label
    rw [totalAt_additions, trueInclusiveTime_eq]
    exact sum_eq_sum_iff_of_le fun s _ => shouldAdd_le_adds hn
  simp only [hterms, ← adds_eq_shouldAdd_iff hn]
  exact ⟨fun h s hs label => h label s hs, fun h label s hs => h s hs label⟩

/-! ## The summary -/

def onCpuNs (samples : List Sample) : Nat := ((samples.filter fun s => s.state = .onCpu).map (·.weightNs)).sum

def offCpuNs (samples : List Sample) : Nat := ((samples.filter fun s => s.state = .offCpu).map (·.weightNs)).sum

theorem sampleSummary_eq (p : Profile) : p.sampleSummary.onCpuNs = min (onCpuNs p.samples) u64Max ∧
    p.sampleSummary.offCpuNs = min (offCpuNs p.samples) u64Max := by
  rw [Profile.sampleSummary]
  induction p.samples using List.reverseRecOn with
  | nil => exact ⟨rfl, rfl⟩
  | append_singleton samples s ih =>
      have hon : onCpuNs (samples ++ [s]) = onCpuNs samples + onCpuNs [s] := by simp [onCpuNs]
      have hoff : offCpuNs (samples ++ [s]) = offCpuNs samples + offCpuNs [s] := by simp [offCpuNs]
      rw [List.foldl_concat, hon, hoff, SampleSummary.add]
      cases hs : s.state with
      | onCpu =>
          simp only [onCpuNs, offCpuNs, satAdd64] at ih ⊢
          simp [hs, ih, saturatingAdd_min]
      | offCpu =>
          simp only [onCpuNs, offCpuNs, satAdd64] at ih ⊢
          simp [hs, ih, saturatingAdd_min]

theorem onCpuNs_add_offCpuNs (samples : List Sample) :
    onCpuNs samples + offCpuNs samples = (samples.map (·.weightNs)).sum := by
  induction samples with
  | nil => rfl
  | cons s samples ih =>
      simp only [onCpuNs, offCpuNs] at ih ⊢
      cases hs : s.state <;> simp [hs, ← ih] <;> omega

theorem under_sampleSummary (hw : (p.samples.map (·.weightNs)).sum ≤ u64Max) (metric : Metric) :
    p.sampleSummary.under metric = ((p.samples.filter fun s => metric.includes s.state).map (·.weightNs)).sum := by
  have hsplit := onCpuNs_add_offCpuNs p.samples
  obtain ⟨hon, hoff⟩ := sampleSummary_eq p
  rw [Nat.min_eq_left (by omega)] at hon hoff
  cases metric with
  | wall =>
      rw [SampleSummary.under, hon, hoff, hsplit]
      exact congrArg (fun l : List Sample => (l.map (·.weightNs)).sum) (List.filter_eq_self.mpr fun _ _ => rfl).symm
  | cpu =>
      rw [SampleSummary.under, hon, onCpuNs]
      refine congrArg (fun l : List Sample => (l.map (·.weightNs)).sum) (List.filter_congr fun s _ => ?_)
      cases s.state <;> rfl
  | offCpu =>
      rw [SampleSummary.under, hoff, offCpuNs]
      refine congrArg (fun l : List Sample => (l.map (·.weightNs)).sum) (List.filter_congr fun s _ => ?_)
      cases s.state <;> rfl

theorem trueInclusiveTime_le (p : Profile) (metric : Metric) (label : String) : p.trueInclusiveTime metric label ≤
    ((p.samples.filter fun s => metric.includes s.state).map (·.weightNs)).sum := by
  rw [Profile.trueInclusiveTime, ← List.filter_filter]
  conv => lhs; rw [List.filter_comm]
  exact sum_filter_le ..

/-! ## The list of functions -/

theorem discover_functions {d : Discovery} (h : discover p metric = .ok d) :
    ∀ e ∈ d.functions, e.2 = p.inclusiveTime metric e.1 := by
  obtain ⟨-, -, heq⟩ := bind_eq_ok.mp h
  obtain rfl := Except.ok.inj heq
  intro e he
  have hmem : (e.1, e.2) ∈ p.inclusive metric := mem_sortByKey.mp (List.mem_of_mem_take he)
  have hkeys : KeysIncrease (p.inclusive metric) := inclusive_eq p metric ▸ keysIncrease_tallyAll _
  rw [Profile.inclusiveTime, hkeys.lookupKey_of_mem hmem, Option.getD_some]

end SliceProfiler
