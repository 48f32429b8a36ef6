import Mathlib.Algebra.Order.Floor.Div
import Mathlib.GroupTheory.GroupAction.Ring
import SliceProfiler.Core.Lemmas.Validate
import SliceProfiler.Core.Query

/-!
# Ranks, and what a query reads of the samples
-/

namespace SliceProfiler

open Lib

/-! ## Rank bounds -/

theorem satCeil_eq {n percent : Nat} (hn : 100 * n < 2 ^ 64) (hp : percent ≤ 100) :
    min (satAdd64 (satMul64 n percent) 99 / 100) n = n * percent ⌈/⌉ 100 := by
  have hle : n * percent ≤ n * 100 := Nat.mul_le_mul_left n hp
  have hmax := u64Max_eq
  have hmul : satMul64 n percent = n * percent := Nat.min_eq_left (by omega)
  rw [Nat.ceilDiv_eq_add_pred_div, hmul, satAdd64, saturatingAdd]
  -- only the full percentile can reach the bound of the addition, and there both sides are `n`
  omega

theorem rankBounds_eq {n : Nat} {r : PercentileRange} (hn : 100 * n < 2 ^ 64) (hl : r.low ≤ 100)
    (hh : r.high ≤ 100) : rankBounds n r = (n * r.low ⌈/⌉ 100, n * r.high ⌈/⌉ 100) := by
  simp only [rankBounds, satCeil_eq hn hl, satCeil_eq hn hh]

theorem rankBounds_le (n : Nat) (r : PercentileRange) (h : r.low ≤ r.high) :
    (rankBounds n r).1 ≤ (rankBounds n r).2 ∧ (rankBounds n r).2 ≤ n :=
  ⟨min_le_min_right n (Nat.div_le_div_right
    (saturatingAdd_le_saturatingAdd (saturatingMul_le_saturatingMul h))), Nat.min_le_right _ _⟩

/-! ## The population -/

/-- The invocation passes the filters of the query. -/
structure Query.Eligible (q : Query) (i : Invocation) : Prop where
  function : i.functionId = q.functionId
  complete : i.complete = true
  valid : i.valid = true
  thread : ∀ threads, q.threads = some threads → i.tid ∈ threads
  time : ∀ t, q.time = some t → t.fromNs ≤ i.startNs ∧ i.startNs < t.toNs

theorem eligible_iff {q : Query} {i : Invocation} : q.eligible i = true ↔ q.Eligible i := by
  simp only [Query.eligible, TimeRange.containsStart, Bool.and_eq_true, beq_iff_eq, Option.all_eq_true,
    decide_eq_true_eq, ge_iff_le]
  exact ⟨fun ⟨⟨⟨hf, hc, hv⟩, ht⟩, hr⟩ => ⟨hf, hc, hv, ht, hr⟩,
    fun h => ⟨⟨⟨h.function, h.complete, h.valid⟩, h.thread⟩, h.time⟩⟩

instance (q : Query) (i : Invocation) : Decidable (q.Eligible i) :=
  decidable_of_iff _ eligible_iff

/-- The order of the ranks. -/
def Invocation.Below (i j : Invocation) : Prop :=
  i.durationNs < j.durationNs ∨ i.durationNs = j.durationNs ∧ i.id < j.id

instance (i j : Invocation) : Decidable (i.Below j) := inferInstanceAs (Decidable (_ ∨ _))

def Invocation.rankKey (i : Invocation) : Nat ×ₗ Nat := toLex (i.durationNs, i.id)

theorem rankKey_lt_iff {i j : Invocation} : i.rankKey < j.rankKey ↔ i.Below j :=
  Prod.Lex.toLex_lt_toLex

variable {p : Profile} {q : Query}

theorem mem_candidates {i : Invocation} : i ∈ candidates p q ↔ i ∈ p.invocations ∧ q.Eligible i := by
  simp only [candidates, mem_sortByKey, List.mem_filter, eligible_iff]

theorem candidates_perm : (candidates p q).Perm (p.invocations.filter q.eligible) := sortByKey_perm _ _

theorem length_candidates : (candidates p q).length = p.invocations.countP (fun i => q.Eligible i) := by
  rw [candidates, length_sortByKey, ← List.countP_eq_length_filter]
  exact List.countP_congr fun i _ => by simp [eligible_iff]

theorem candidates_ids_nodup (hn : (p.invocations.map (·.id)).Nodup) :
    ((candidates p q).map (·.id)).Nodup :=
  (candidates_perm.map _).nodup_iff.mpr (hn.sublist (List.filter_sublist.map _))

theorem candidates_strict (hn : (p.invocations.map (·.id)).Nodup) :
    (candidates p q).Pairwise Invocation.Below := by
  have hk : ((p.invocations.filter q.eligible).map Invocation.rankKey).Nodup := by
    refine List.Nodup.of_map (fun k => (ofLex k).2) ?_
    rw [List.map_map]
    exact hn.sublist (List.filter_sublist.map _)
  exact (sortByKey_strict hk).imp rankKey_lt_iff.mp

theorem sorted_durations (l : List Invocation) :
    ((sortByKey (fun i : Invocation => toLex (i.durationNs, i.id)) l).map (·.durationNs)).Pairwise (· ≤ ·) := by
  rw [List.pairwise_map]
  refine (sortByKey_sorted (fun i : Invocation => toLex (i.durationNs, i.id)) l).imp fun {i j} h => ?_
  rcases Prod.Lex.toLex_le_toLex.mp h with hlt | ⟨heq, -⟩
  · exact hlt.le
  · exact heq.le

theorem candidates_durations_sorted : ((candidates p q).map (·.durationNs)).Pairwise (· ≤ ·) := sorted_durations _

/-- The number of eligible invocations below `i`. -/
def below (p : Profile) (q : Query) (i : Invocation) : Nat :=
  p.invocations.countP fun j => q.Eligible j ∧ j.Below i

theorem rank_candidates (i : Invocation) :
    rank Invocation.rankKey (candidates p q) i.rankKey = below p q i := by
  rw [rank_perm candidates_perm, rank, List.countP_filter, below]
  exact List.countP_congr fun j _ => by simp [rankKey_lt_iff, eligible_iff, and_comm]

theorem mem_selected (hn : (p.invocations.map (·.id)).Nodup) {i : Invocation} :
    i ∈ selected p q ↔ (i ∈ p.invocations ∧ q.Eligible i) ∧
      (rankBounds (candidates p q).length q.percentile).1 ≤ below p q i ∧
      below p q i < (rankBounds (candidates p q).length q.percentile).2 := by
  have hs : (candidates p q).Pairwise fun i j => i.rankKey < j.rankKey :=
    (candidates_strict hn).imp rankKey_lt_iff.mpr
  rw [selected, mem_slice_iff hs, mem_candidates, rank_candidates]

theorem selected_sublist : (selected p q).Sublist (candidates p q) :=
  (List.take_sublist _ _).trans (List.drop_sublist _ _)

theorem mem_selected_ids (hn : (p.invocations.map (·.id)).Nodup) {i : Invocation}
    (hi : i ∈ p.invocations) : i.id ∈ (selected p q).map (·.id) ↔ i ∈ selected p q := by
  constructor
  · intro h
    obtain ⟨j, hj, he⟩ := List.mem_map.mp h
    have hj' := (mem_candidates.mp (selected_sublist.subset hj)).1
    rwa [List.inj_on_of_nodup_map hn hj' hi he] at hj
  · exact List.mem_map_of_mem

/-! ## The flame tree does not depend on the order of the samples -/

theorem TreeBuilder.insert_comm (fs gs : List Frame) (v w : Nat) (t : TreeBuilder) :
    insert fs v (insert gs w t) = insert gs w (insert fs v t) := by
  induction fs generalizing gs t with
  | nil => cases t; cases gs <;> simp [insert, saturatingAdd_right_comm]
  | cons f fs ih =>
      cases t with
      | mk value children =>
          cases gs with
          | nil => simp [insert, saturatingAdd_right_comm]
          | cons g gs =>
              simp only [insert, TreeBuilder.mk.injEq]
              refine ⟨saturatingAdd_right_comm, ?_⟩
              by_cases h : f.label = g.label
              · simp only [h, upsert_upsert_self, Option.getD_some, ih]
              · exact upsert_comm h _ _ children

theorem SampleTotals.add_comm (q : Query) (name : Option String) (t : SampleTotals)
    (f₁ f₂ : List Frame) (s₁ s₂ : ExecutionState) (w₁ w₂ : Nat) :
    (t.add q name f₁ s₁ w₁).add q name f₂ s₂ w₂ = (t.add q name f₂ s₂ w₂).add q name f₁ s₁ w₁ := by
  unfold SampleTotals.add
  cases f₁.findIdx? (q.startsAt name) with
  | none => rfl
  | some i =>
      cases f₂.findIdx? (q.startsAt name) with
      | none => rfl
      | some j =>
          cases s₁ <;> cases s₂ <;>
            simp only [TreeBuilder.insert_comm (f₁.drop i), saturatingAdd_right_comm (b := w₁)]

/-! ## Samples with their frames -/

/-- A sample with the frames in place of the stack id. -/
structure ResolvedSample where
  timestampNs : Nat
  invocationId : Nat
  frames : List Frame
  tid : Nat
  cpu : Nat
  state : ExecutionState
  weightNs : Nat

def framesOf (ks : List Stack) (stackId : Nat) : List Frame :=
  ((ks.find? fun k => k.id = stackId).map (·.frames)).getD []

def resolve (ks : List Stack) (s : Sample) : ResolvedSample where
  timestampNs := s.timestampNs
  invocationId := s.invocationId
  frames := framesOf ks s.stackId
  tid := s.tid
  cpu := s.cpu
  state := s.state
  weightNs := s.weightNs

def Profile.resolvedSamples (p : Profile) : List ResolvedSample := p.samples.map (resolve p.stacks)

/-- Each sample names one stack of the profile. -/
structure Profile.KnownStacks (p : Profile) : Prop where
  ids : (p.stacks.map (·.id)).Nodup
  known : ∀ s ∈ p.samples, ∃ k ∈ p.stacks, k.id = s.stackId

theorem Profile.WellFormed.knownStacks (h : p.WellFormed) : p.KnownStacks :=
  ⟨h.stackIds, fun s hs => (h.samples s hs).stack⟩

/-- The step of the sample loop for a resolved sample. -/
def SampleTotals.addResolved (q : Query) (name : Option String) (ids : Finset Nat) (t : SampleTotals)
    (r : ResolvedSample) : SampleTotals :=
  if r.invocationId ∉ ids ∨ ¬ q.metric.includes r.state then t
  else t.add q name r.frames r.state r.weightNs

theorem lookup_stack {ks : List Stack} (hn : (ks.map (·.id)).Nodup) {k : Stack} (hk : k ∈ ks) :
    (Map.ofList (ks.map fun k => (k.id, k))).lookup k.id = some k ∧ framesOf ks k.id = k.frames := by
  constructor
  · rw [Map.lookup_ofList (by simpa [Function.comp_def] using hn)]
    exact List.mem_map_of_mem (f := fun k : Stack => (k.id, k)) hk
  · rw [framesOf, (find_key_eq_some hn).mpr ⟨hk, rfl⟩]; rfl

/-- With known stacks the loop succeeds, and folds over the resolved samples. -/
theorem sampleTotals_eq {q : Query} {name : Option String} {ids : Finset Nat} {ks : List Stack}
    (hn : (ks.map (·.id)).Nodup) {samples : List Sample}
    (hk : ∀ s ∈ samples, ∃ k ∈ ks, k.id = s.stackId) (t : SampleTotals) :
    sampleTotals q name ids (Map.ofList (ks.map fun k => (k.id, k))) t samples =
      .ok ((samples.map (resolve ks)).foldl (SampleTotals.addResolved q name ids) t) := by
  induction samples generalizing t with
  | nil => rfl
  | cons s samples ih =>
      have ih' := ih fun s hs => hk s (List.mem_cons_of_mem _ hs)
      obtain ⟨k, hm, he⟩ := hk s List.mem_cons_self
      obtain ⟨hl, hf⟩ := lookup_stack hn hm
      simp only [sampleTotals, List.map_cons, List.foldl_cons, SampleTotals.addResolved, resolve]
      split
      · exact ih' t
      · rw [← he, hl, hf]; exact ih' _

theorem addResolved_foldl_perm {q : Query} {name : Option String} {ids : Finset Nat}
    {l₁ l₂ : List ResolvedSample} (h : l₁.Perm l₂) (t : SampleTotals) :
    l₁.foldl (SampleTotals.addResolved q name ids) t =
      l₂.foldl (SampleTotals.addResolved q name ids) t := by
  have : RightCommutative (SampleTotals.addResolved q name ids) := by
    refine ⟨fun t a b => ?_⟩
    simp only [SampleTotals.addResolved]
    split <;> split <;> first | rfl | exact SampleTotals.add_comm ..
  exact h.foldl_eq t

theorem addResolved_foldl_filter {q : Query} {name : Option String} {ids : Finset Nat} (l : List ResolvedSample)
    (t : SampleTotals) : (l.filter fun r => r.invocationId ∈ ids).foldl (SampleTotals.addResolved q name ids) t =
      l.foldl (SampleTotals.addResolved q name ids) t := by
  induction l generalizing t with
  | nil => rfl
  | cons r l ih =>
      rw [List.foldl_cons, List.filter_cons]
      split
      · exact ih _
      · rename_i hr
        rw [ih, SampleTotals.addResolved, if_pos (.inl (by simpa using hr))]

/-- A query reads the samples only through the collection of resolved samples of the selected invocations. -/
theorem executeQuery_congr_selected {p₁ p₂ : Profile} {q : Query} (hc : candidates p₁ q = candidates p₂ q)
    (hf : p₁.functions = p₂.functions) (h₁ : p₁.KnownStacks) (h₂ : p₂.KnownStacks)
    (hs : (p₁.resolvedSamples.filter fun r => r.invocationId ∈ ((selected p₁ q).map (·.id)).toFinset).Perm
      (p₂.resolvedSamples.filter fun r => r.invocationId ∈ ((selected p₁ q).map (·.id)).toFinset)) :
    executeQuery p₁ q = executeQuery p₂ q := by
  have hsel : selected p₁ q = selected p₂ q := by simp only [selected, hc]
  have hname : q.selectedName p₁ = q.selectedName p₂ := by simp only [Query.selectedName, hf]
  rw [hsel] at hs
  simp only [executeQuery, hc, hsel, hname, sampleTotals_eq h₁.ids h₁.known,
    sampleTotals_eq h₂.ids h₂.known]
  have hfold := @addResolved_foldl_perm q (q.selectedName p₂) ((selected p₂ q).map (·.id)).toFinset _ _ hs
    ⟨.default, 0, 0⟩
  rw [addResolved_foldl_filter, addResolved_foldl_filter, Profile.resolvedSamples, Profile.resolvedSamples] at hfold
  rw [hfold]

theorem executeQuery_congr {p₁ p₂ : Profile} (hi : p₁.invocations = p₂.invocations)
    (hf : p₁.functions = p₂.functions) (h₁ : p₁.KnownStacks) (h₂ : p₂.KnownStacks)
    (hs : p₁.resolvedSamples.Perm p₂.resolvedSamples) (q : Query) :
    executeQuery p₁ q = executeQuery p₂ q :=
  executeQuery_congr_selected (by simp only [candidates, hi]) hf h₁ h₂ (hs.filter _)

theorem executeQuery_checks {r : QueryResult} (h : executeQuery p q = .ok r) :
    q.percentile.low < q.percentile.high ∧ q.percentile.high ≤ 100 ∧
      ∀ t, q.time = some t → t.fromNs < t.toNs := by
  simp only [executeQuery, PercentileRange.validate, bind_eq_ok, ensure_eq_ok] at h
  obtain ⟨_, hpct, ⟨⟩, htime, -⟩ := h
  simp only [checkOption_eq_ok, ensure_eq_ok] at htime
  exact ⟨by omega, by omega, htime⟩

/-- With known stacks only a bad percentile or time range fails. -/
theorem executeQuery_ok_of_known (hk : p.KnownStacks) (hlh : q.percentile.low < q.percentile.high)
    (hh : q.percentile.high ≤ 100) (ht : ∀ t, q.time = some t → t.fromNs < t.toNs) :
    ∃ r, executeQuery p q = .ok r ∧ r.selectedInvocationIds = (selected p q).map (·.id) ∧
      r.availableInvocationCount = (candidates p q).length ∧
      r.latencyMinNs = ((selected p q).map (·.durationNs)).min? ∧
      r.latencyMaxNs = ((selected p q).map (·.durationNs)).max? := by
  have hpct : q.percentile.validate = .ok () := by
    simp only [PercentileRange.validate, ensure_eq_ok]; omega
  have htime : checkOption (fun time : TimeRange => ensure (time.fromNs < time.toNs)
      (QueryError.invalidTimeRange time)) q.time = .ok () := by
    simpa only [checkOption_eq_ok, ensure_eq_ok] using ht
  simp only [executeQuery, hpct, htime, sampleTotals_eq hk.ids hk.known]
  exact ⟨_, rfl, rfl, rfl, rfl, rfl⟩

/-- Without a frame at which the flame graph may start no sample counts. -/
theorem sampledCpuNs_of_not_startsAt {p : Profile} {q : Query} {r : QueryResult}
    (hf : ∀ id k, (Map.ofList (p.stacks.map fun k => (k.id, k))).lookup id = some k →
      ∀ f ∈ k.frames, q.startsAt (q.selectedName p) f = false) (h : executeQuery p q = .ok r) :
    r.sampledCpuNs = 0 := by
  have hloop : ∀ ids t t' samples, sampleTotals q (q.selectedName p) ids
      (Map.ofList (p.stacks.map fun k => (k.id, k))) t samples = .ok t' → t' = t := by
    intro ids t t' samples ht
    induction samples with
    | nil => cases ht; rfl
    | cons s samples ih =>
        rw [sampleTotals] at ht
        split at ht
        · exact ih ht
        · split at ht
          · cases ht
          · rename_i k hk
            have hnone : k.frames.findIdx? (q.startsAt (q.selectedName p)) = none :=
              List.findIdx?_eq_none_iff.mpr (hf _ k hk)
            simp only [SampleTotals.add, hnone] at ht
            exact ih ht
  simp only [executeQuery, bind_eq_ok] at h
  obtain ⟨_, -, _, -, t, ht, hr⟩ := h
  cases hloop _ _ _ _ ht
  cases hr
  rfl

/-! ## What a query reads of the invocations -/

/-- The invocations that a query may select. -/
def Profile.validInvocations (p : Profile) : List Invocation :=
  p.invocations.filter fun i => i.complete && i.valid

theorem mem_validInvocations {i : Invocation} :
    i ∈ p.validInvocations ↔ i ∈ p.invocations ∧ i.complete = true ∧ i.valid = true := by
  simp [Profile.validInvocations, List.mem_filter]

theorem eligible_validInvocations :
    p.validInvocations.filter q.eligible = p.invocations.filter q.eligible := by
  rw [Profile.validInvocations, List.filter_filter]
  refine List.filter_congr fun i _ => ?_
  cases he : q.eligible i with
  | false => rfl
  | true =>
      have h := eligible_iff.mp he
      simp [h.complete, h.valid]

/-- A query reads only the valid invocations, and the samples under their ids. -/
theorem executeQuery_congr_valid {p₁ p₂ : Profile} (hn : (p₁.validInvocations.map (·.id)).Nodup)
    (hi : p₁.validInvocations.Perm p₂.validInvocations) (hf : p₁.functions = p₂.functions)
    (h₁ : p₁.KnownStacks) (h₂ : p₂.KnownStacks)
    (hs : ∀ i ∈ p₁.validInvocations, (p₁.resolvedSamples.filter fun r => r.invocationId = i.id).Perm
      (p₂.resolvedSamples.filter fun r => r.invocationId = i.id)) (q : Query) :
    executeQuery p₁ q = executeQuery p₂ q := by
  have hkeys : ((p₁.invocations.filter q.eligible).map Invocation.rankKey).Nodup := by
    refine List.Nodup.of_map (fun k => (ofLex k).2) ?_
    rw [List.map_map, ← eligible_validInvocations]
    exact hn.sublist (List.filter_sublist.map _)
  have hc : candidates p₁ q = candidates p₂ q := by
    refine sortByKey_of_perm ?_ hkeys
    rw [← eligible_validInvocations, ← eligible_validInvocations]
    exact hi.filter _
  refine executeQuery_congr_selected hc hf h₁ h₂ (perm_filter_of_key (P := fun id => decide (id ∈ _)) fun id hid => ?_)
  obtain ⟨i, hm, rfl⟩ := List.mem_map.mp (List.mem_toFinset.mp (of_decide_eq_true hid))
  obtain ⟨hmem, he⟩ := mem_candidates.mp (selected_sublist.subset hm)
  exact hs i (mem_validInvocations.mpr ⟨hmem, he.complete, he.valid⟩)

end SliceProfiler
