import SliceProfiler.Core.Validate

/-!
# What a successful validation says
-/

namespace SliceProfiler

open Lib

variable {p : Profile}

theorem uniqueIds_eq_ok {ids : List Nat} {kind : String} {s : Finset Nat} :
    uniqueIds ids kind = .ok s ↔ ids.Nodup ∧ s = ids.toFinset := by
  simp only [uniqueIds, insertAll_eq_ok, Finset.notMem_empty, not_false_eq_true, implies_true,
    false_or, true_and, Finset.ext_iff, List.mem_toFinset]

/-! ## The chain of parents -/

theorem parentOf_eq_some (hn : (p.invocations.map (·.id)).Nodup) {id parent : Nat} :
    p.parentOf id = some parent ↔ p.IsParent parent id := by
  have hk : ((p.invocations.map fun i => (i.id, i.parentId)).map Prod.fst).Nodup := by
    simpa [Function.comp_def] using hn
  simp only [Profile.parentOf, Option.join_eq_some_iff, Profile.parents, Map.lookup_ofList hk,
    List.mem_map, Prod.mk.injEq, Profile.IsParent]

theorem mem_ids_of_parentOf (hn : (p.invocations.map (·.id)).Nodup) {a b : Nat} (h : p.parentOf a = some b) :
    a ∈ (p.invocations.map (·.id)).toFinset := by
  obtain ⟨i, hi, rfl, _⟩ := (parentOf_eq_some hn).mp h
  exact List.mem_toFinset.mpr (List.mem_map_of_mem hi)

theorem card_ids_le (p : Profile) : (p.invocations.map (·.id)).toFinset.card + 2 ≤ p.invocations.length + 2 := by
  have := List.toFinset_card_le (p.invocations.map (·.id))
  rw [List.length_map] at this
  omega

theorem ancestry_eq_true (hn : (p.invocations.map (·.id)).Nodup) {id : Nat} :
    p.ancestry id = some true ↔ ¬ Ends p.parentOf (some id) :=
  walk_eq_true_iff (fun _ _ => mem_ids_of_parentOf hn) (card_ids_le p)

/-- The loop ends on its own: after one iteration for each invocation and two more, further ones change nothing. -/
theorem ancestry_of_le (hn : (p.invocations.map (·.id)).Nodup) (id : Nat) {n : Nat} (h : p.invocations.length + 2 ≤ n) :
    ∃ cyclic, walk p.parentOf n ∅ (some id) = some cyclic ∧ p.ancestry id = some cyclic := by
  have hs : (p.ancestry id).isSome :=
    walk_isSome (fun _ _ => mem_ids_of_parentOf hn) (by simpa using card_ids_le p)
  obtain ⟨cyclic, hc⟩ := Option.isSome_iff_exists.mp hs
  exact ⟨cyclic, walk_of_le hc h, hc⟩

theorem ends_iff_reachesTop (hn : (p.invocations.map (·.id)).Nodup) {id : Nat} :
    Ends p.parentOf (some id) ↔ p.ReachesTop id := by
  simp only [ends_iff_exists_last, Profile.ReachesTop, ← parentOf_eq_some hn, Option.eq_none_iff_forall_ne_some, ne_eq]

theorem Profile.Rooted.ends (hn : (p.invocations.map (·.id)).Nodup) {id : Nat} (h : p.Rooted id) :
    Ends p.parentOf (some id) := by
  induction h with
  | @root i hi hp =>
      rw [ends_some_iff]
      cases h : p.parentOf i.id with
      | none => exact ends_none _
      | some q =>
          obtain ⟨j, hj, he, hq⟩ := (parentOf_eq_some hn).mp h
          rw [List.inj_on_of_nodup_map hn hj hi he, hp] at hq
          cases hq
  | child hi hp _ ih =>
      rw [ends_some_iff, (parentOf_eq_some hn).mpr ⟨_, hi, rfl, hp⟩]
      exact ih

/-- When every parent is known, a chain that ends does so at an invocation without a parent. -/
theorem rooted_of_iterate (hn : (p.invocations.map (·.id)).Nodup)
    (hp : ∀ i ∈ p.invocations, ∀ q, i.parentId = some q → ∃ j ∈ p.invocations, j.id = q) {n : Nat}
    {i : Invocation} (hi : i ∈ p.invocations)
    (h : (follow p.parentOf)^[n] (some i.id) = none) : p.Rooted i.id := by
  induction n generalizing i with
  | zero => cases h
  | succ n ih =>
      rw [Function.iterate_succ_apply, follow_some] at h
      cases hq : i.parentId with
      | none => exact .root hi hq
      | some q =>
          obtain ⟨j, hj, rfl⟩ := hp i hi q hq
          rw [(parentOf_eq_some hn).mpr ⟨i, hi, rfl, hq⟩] at h
          exact .child hi hq (ih hj h)

/-! ## The checks -/

theorem validateInvocation_eq_ok (hn : (p.invocations.map (·.id)).Nodup) {i : Invocation} :
    p.validateInvocation (p.functions.map (·.id)).toFinset (p.threads.map (·.tid)).toFinset
        (p.invocations.map (·.id)).toFinset i = .ok () ↔
      (∃ f ∈ p.functions, f.id = i.functionId) ∧ (∃ t ∈ p.threads, t.tid = i.tid) ∧
        i.startNs ≤ i.endNs ∧ (∀ q, i.parentId = some q → ∃ j ∈ p.invocations, j.id = q) ∧
        Ends p.parentOf (some i.id) := by
  simp only [Profile.validateInvocation, bind_eq_ok, ensure_eq_ok, checkOption_eq_ok, exists_and_left,
    exists_and_right, exists_unit_ok, exists_const, List.mem_toFinset, List.mem_map, ne_eq,
    ancestry_eq_true hn, not_not]

theorem validateInvocation_eq_cyclic (hn : (p.invocations.map (·.id)).Nodup) {F T I : Finset Nat} {i : Invocation} :
    p.validateInvocation F T I i = .error (.cyclicInvocationParent i.id) ↔
      (i.functionId ∈ F ∧ i.tid ∈ T ∧ i.startNs ≤ i.endNs ∧ ∀ q, i.parentId = some q → q ∈ I) ∧
        ¬ p.ReachesTop i.id := by
  simp [Profile.validateInvocation, ancestry_eq_true hn, ends_iff_reachesTop hn, and_assoc]

theorem validateInvocations_eq_ok (hn : (p.invocations.map (·.id)).Nodup) :
    checkAll (p.validateInvocation (p.functions.map (·.id)).toFinset (p.threads.map (·.tid)).toFinset
        (p.invocations.map (·.id)).toFinset) p.invocations = .ok () ↔
      ∀ i ∈ p.invocations, i.WellFormed p := by
  simp only [checkAll_eq_ok, validateInvocation_eq_ok hn]
  constructor
  · intro h i hi
    obtain ⟨hf, ht, hb, hp, n, he⟩ := h i hi
    exact ⟨hf, ht, hb, hp, rooted_of_iterate hn (fun j hj => (h j hj).2.2.2.1) hi he⟩
  · intro h i hi
    have hw := h i hi
    exact ⟨hw.function, hw.thread, hw.bounds, hw.parent, hw.rooted.ends hn⟩

theorem validateSample_eq_ok (hn : (p.invocations.map (·.id)).Nodup) {s : Sample} :
    p.validateSample (p.invocations.map (·.id)).toFinset (p.stacks.map (·.id)).toFinset s = .ok () ↔
      s.WellFormed p := by
  simp only [Profile.validateSample, bind_eq_ok, ensure_eq_ok, exists_const, List.mem_toFinset,
    List.mem_map]
  constructor
  · rintro ⟨_, hk, h⟩
    split at h
    · rename_i i hi
      obtain ⟨hi, he⟩ := (find_key_eq_some hn).mp hi
      simp only [bind_eq_ok, ensure_eq_ok, exists_const] at h
      exact ⟨hk, i, hi, he, h.1.symm, h.2.1, h.2.2⟩
    · cases h
  · rintro ⟨hk, i, hi, he, ht, hb⟩
    refine ⟨⟨i, hi, he⟩, hk, ?_⟩
    rw [(find_key_eq_some hn).mpr ⟨hi, he⟩]
    simp only [bind_eq_ok, ensure_eq_ok, exists_const]
    exact ⟨ht.symm, hb⟩

theorem validate_eq_ok : p.validate = .ok () ↔
    p.formatVersion = 1 ∧ (p.functions.map (·.id)).Nodup ∧ (p.threads.map (·.tid)).Nodup ∧
      (p.invocations.map (·.id)).Nodup ∧ (p.stacks.map (·.id)).Nodup ∧
      checkAll (p.validateInvocation (p.functions.map (·.id)).toFinset (p.threads.map (·.tid)).toFinset
        (p.invocations.map (·.id)).toFinset) p.invocations = .ok () ∧
      (∀ k ∈ p.stacks, ∀ f ∈ k.frames, ∀ id, f.functionId = some id → ∃ g ∈ p.functions, g.id = id) ∧
      (∀ s ∈ p.samples, p.validateSample (p.invocations.map (·.id)).toFinset
        (p.stacks.map (·.id)).toFinset s = .ok ()) ∧
      p.quality.Consistent p := by
  have hq : p.quality.Consistent p ↔
      ¬ (p.quality.completeInvocations > p.invocations.countP (fun i => i.complete && i.valid) ∨
        p.quality.incompleteInvocations > p.invocations.countP (fun i => !i.complete || !i.valid) ∨
        p.quality.samplesGenerated < p.samples.length) := by
    simp only [not_or, Nat.not_lt, gt_iff_lt]
    exact ⟨fun h => ⟨h.complete, h.incomplete, h.samples⟩, fun h => ⟨h.1, h.2.1, h.2.2⟩⟩
  simp only [Profile.validate, uniqueU32Ids, uniqueU64Ids, uniqueIds_eq_ok, bind_eq_ok, ensure_eq_ok,
    exists_const, exists_unit_ok, exists_and_left, exists_and_right, exists_eq_left, and_assoc, hq]
  simp only [checkAll_eq_ok, validateFrame, checkOption_eq_ok, ensure_eq_ok, List.mem_toFinset, List.mem_map]

theorem Profile.WellFormed.of_validate (h : p.validate = .ok ()) : p.WellFormed := by
  obtain ⟨hv, hf, ht, hi, hk, hinv, hfr, hsm, hq⟩ := validate_eq_ok.mp h
  exact ⟨hv, hf, ht, hi, hk, (validateInvocations_eq_ok hi).mp hinv, hfr,
    fun s hs => (validateSample_eq_ok hi).mp (hsm s hs), hq⟩

theorem Profile.WellFormed.validate (h : p.WellFormed) : p.validate = .ok () :=
  validate_eq_ok.mpr ⟨h.version, h.functionIds, h.threadIds, h.invocationIds, h.stackIds,
    (validateInvocations_eq_ok h.invocationIds).mpr h.invocations, h.frames,
    fun s hs => (validateSample_eq_ok h.invocationIds).mpr (h.samples s hs), h.quality⟩

end SliceProfiler
