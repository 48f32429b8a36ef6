import SliceProfiler.Collector.Lemmas.LocalFinish

/-!
# Stack ids past their bound

Samples with different frames take the stack ids in turn. The ids stop at the largest one, so that it
belongs to two stacks when there are more stacks than ids.
-/

namespace SliceProfiler

open Lib

/-- The stack id of the sample at a position, when all samples have different frames. -/
def stackIdAt (position : Nat) : Nat := min (position + 1) u32Max

/-- Every sample has brought a stack of its own. -/
structure Numbered (c : Correlator) (p : Profile) (l : List (Nat × PendingSample)) : Prop where
  next : c.nextStackId = stackIdAt l.length
  fresh : ∀ frames, frames ∉ l.map (·.2.frames) → c.stackIds.lookup frames = none
  «stacks» : p.stacks = l.mapIdx fun k x => ⟨stackIdAt k, x.2.frames⟩
  samples : p.samples = l.mapIdx fun k x =>
    ⟨x.2.timestampNs, x.1, stackIdAt k, x.2.tid, x.2.cpu, x.2.state, x.2.weightNs⟩

variable {c : Correlator} {p : Profile} {l : List (Nat × PendingSample)}

theorem Numbered.nil (hc : c.stackIds = ∅) (hn : c.nextStackId = 1) (hk : p.stacks = [])
    (hs : p.samples = []) : Numbered c p [] where
  next := by rw [hn]; rfl
  fresh frames _ := by rw [hc]; rfl
  «stacks» := hk
  samples := hs

theorem stackIdAt_succ (k : Nat) : satAdd32 (stackIdAt k) 1 = stackIdAt (k + 1) := saturatingAdd_min

theorem Numbered.append (h : Numbered c p l) {x : Nat × PendingSample} (hx : x.2.frames ∉ l.map (·.2.frames)) :
    Numbered (c.appendSample p x.1 x.2).1 (c.appendSample p x.1 x.2).2 (l ++ [x]) := by
  have hnew := h.fresh _ hx
  constructor
  · simp only [Correlator.appendSample, Correlator.internStack, hnew, h.next, stackIdAt_succ, List.length_append,
      List.length_singleton]
  · intro frames hf
    simp only [List.map_append, List.map_singleton, List.mem_append, List.mem_singleton, not_or] at hf
    simp only [Correlator.appendSample, Correlator.internStack, hnew]
    rw [lookup_insert_if, if_neg hf.2]
    exact h.fresh frames hf.1
  · simp only [Correlator.appendSample, Correlator.internStack, hnew, h.next, h.stacks, List.mapIdx_concat]
  · simp only [Correlator.appendSample, Correlator.internStack, hnew, h.next, h.samples, List.mapIdx_concat]

theorem Numbered.appendAll (h : Numbered c p l) {xs : List (Nat × PendingSample)}
    (hn : ((l ++ xs).map (·.2.frames)).Nodup) :
    Numbered (SliceProfiler.appendAll (c, p) xs).1 (SliceProfiler.appendAll (c, p) xs).2 (l ++ xs) := by
  induction xs generalizing c p l with
  | nil => rw [List.append_nil]; exact h
  | cons x xs ih =>
      rw [List.append_cons] at hn ⊢
      have hx : x.2.frames ∉ l.map (·.2.frames) := by
        rw [List.map_append, List.map_append] at hn
        exact fun hm => (List.nodup_append.mp (List.nodup_append.mp hn).1).2.2 _ hm _ (by simp) rfl
      exact ih (h.append hx) hn

theorem Numbered.first_resolved {x : Nat × PendingSample} (h : Numbered c p (x :: l)) :
    x.2.resolved x.1 ∈ p.resolvedSamples := by
  rw [Profile.resolvedSamples, h.samples, h.stacks, List.mapIdx_cons, List.mapIdx_cons, List.map_cons]
  apply List.mem_cons.mpr
  left
  simp [resolve, framesOf, PendingSample.resolved]

/-- After as many samples as there are ids, the frames of one more are no longer found. -/
theorem Numbered.last_lost {x : Nat × PendingSample} (h : Numbered c p (l ++ [x])) (hl : l.length = u32Max)
    (hn : x.2.frames ∉ l.map (·.2.frames)) : ∀ r ∈ p.resolvedSamples, r.frames ≠ x.2.frames := by
  intro r hr
  obtain ⟨s, hs, rfl⟩ := List.mem_map.mp hr
  -- some stack in front of the last one has the id of the sample
  have hid : ∃ k < l.length, stackIdAt k = s.stackId := by
    rw [h.samples, List.mem_mapIdx] at hs
    obtain ⟨k, hk, rfl⟩ := hs
    rw [List.length_append, List.length_singleton] at hk
    have hpos : 0 < u32Max := by decide
    rcases Nat.lt_or_ge k l.length with hlt | hge
    · exact ⟨k, hlt, rfl⟩
    · refine ⟨l.length - 1, by omega, ?_⟩
      simp only [stackIdAt]
      omega
  obtain ⟨k, hk, hs⟩ := hid
  have hfound : ((l.mapIdx fun k x => (⟨stackIdAt k, x.2.frames⟩ : Stack)).find? fun b => b.id = s.stackId).isSome := by
    rw [List.find?_isSome]
    exact ⟨_, List.mem_mapIdx.mpr ⟨k, hk, rfl⟩, by simpa using hs⟩
  obtain ⟨b, hb⟩ := Option.isSome_iff_exists.mp hfound
  have hmem := List.mem_of_find?_eq_some hb
  obtain ⟨j, hj, rfl⟩ := List.mem_mapIdx.mp hmem
  rw [resolve, framesOf, h.stacks, List.mapIdx_concat, List.find?_append, hb]
  intro he
  exact hn (he ▸ List.mem_map_of_mem (List.getElem_mem hj))

/-- Nothing else of the correlator and of the profile plays a part. -/
theorem Numbered.keep (h : Numbered c p l) {c' : Correlator} {p' : Profile}
    (hn : c'.nextStackId = c.nextStackId) (hi : c'.stackIds = c.stackIds) (hk : p'.stacks = p.stacks)
    (hs : p'.samples = p.samples) : Numbered c' p' l where
  next := hn.trans h.next
  fresh := by rw [hi]; exact h.fresh
  «stacks» := hk.trans h.stacks
  samples := hs.trans h.samples

/-- A query does not find the frames of the last but one sample, since the last one has the same id. -/
theorem Numbered.lookup_lost {x y : Nat × PendingSample} (h : Numbered c p (l ++ [x] ++ [y]))
    (hl : l.length + 1 = u32Max) (hx : x.2.frames ∉ l.map (·.2.frames)) (hy : y.2.frames ≠ x.2.frames)
    {id : Nat} {k : Stack} (hk : (Map.ofList (p.stacks.map fun k => (k.id, k))).lookup id = some k) :
    k.frames ∈ (l ++ [y]).map (·.2.frames) ∧ k.frames ≠ x.2.frames := by
  have hlen : (l ++ [x]).length = l.length + 1 := List.length_append
  rw [h.stacks, List.mapIdx_concat, List.mapIdx_concat, List.map_append, List.map_append, List.map_singleton,
    List.map_singleton, Map.lookup_ofList_concat, Map.lookup_ofList_concat, hlen] at hk
  have hsame : stackIdAt (l.length + 1) = stackIdAt l.length := by
    simp only [stackIdAt]
    omega
  rw [hsame] at hk
  split at hk
  · cases hk
    exact ⟨by simp, hy⟩
  · obtain ⟨k', hk', he⟩ := List.mem_map.mp (Map.mem_of_lookup_ofList hk)
    obtain ⟨j, hj, rfl⟩ := List.mem_mapIdx.mp hk'
    cases he
    have hmem : l[j].2.frames ∈ l.map (·.2.frames) := List.mem_map_of_mem (List.getElem_mem hj)
    refine ⟨?_, fun he => hx (he ▸ hmem)⟩
    rw [List.map_append]
    exact List.mem_append_left _ hmem

/-! ## The local path -/

variable {a : ActiveInvocation} {tid : Nat}

theorem appendSample_correlator (id : Nat) (s : PendingSample) :
    (c.appendSample p id s).1.active = c.active ∧ (c.appendSample p id s).1.sourceMode = c.sourceMode := by
  simp only [Correlator.appendSample, Correlator.internStack]
  cases c.stackIds.lookup s.frames <;> exact ⟨rfl, rfl⟩

/-- The samples of an active invocation bring their stacks in turn. -/
theorem Numbered.pushSamples (h : Numbered c p l) (ha : c.active.lookup tid = some a) (hv : a.valid = true)
    {ss : List PendingSample} (ht : ∀ s ∈ ss, s.tid = tid)
    (hn : ((l ++ ss.map fun s => (a.id, s)).map (·.2.frames)).Nodup) :
    (∃ c' p', pushAll (c, p) (ss.map (.sample none)) = (c', p') ∧ c'.sourceMode = c.sourceMode ∧
        c'.active = c.active ∧ Numbered c' p' (l ++ ss.map fun s => (a.id, s))) ∧
      tagAll (c, p) (ss.map (.sample none)) = ss.map (.sample (some a.id)) := by
  induction ss generalizing c p l with
  | nil => exact ⟨⟨c, p, rfl, rfl, rfl, by simpa using h⟩, rfl⟩
  | cons s ss ih =>
      have hs : c.active.lookup s.tid = some a := by rw [ht s List.mem_cons_self, ha]
      have hpush : c.push p (.sample none s) = c.appendSample (p.count .generateSample) a.id s := by
        simp only [Correlator.push, Correlator.localSample, hs, hv, ↓reduceIte]
      obtain ⟨hactive, hmode⟩ := appendSample_correlator (c := c) (p := p.count .generateSample) a.id s
      have hsplit : (l ++ (s :: ss).map fun s => (a.id, s)) = l ++ [(a.id, s)] ++ ss.map fun s => (a.id, s) :=
        List.append_cons ..
      rw [hsplit] at hn ⊢
      have hx : s.frames ∉ l.map (·.2.frames) := by
        rw [List.map_append, List.map_append] at hn
        exact fun hm => (List.nodup_append.mp (List.nodup_append.mp hn).1).2.2 _ hm _ (by simp) rfl
      have hone : Numbered c (p.count .generateSample) l := h.keep rfl rfl rfl rfl
      obtain ⟨⟨c', p', hrun, hmode', hactive', hnum⟩, htag⟩ := ih (hone.append (x := (a.id, s)) hx)
        (by rw [hactive, ha]) (fun s' hs' => ht s' (List.mem_cons_of_mem _ hs')) hn
      refine ⟨⟨c', p', ?_, hmode'.trans hmode, hactive'.trans hactive, hnum⟩, ?_⟩
      · rw [← hrun, List.map_cons, pushAll, List.foldl_cons]
        exact congrArg (fun s => pushAll s _) hpush
      · rw [List.map_cons, List.map_cons, tagAll, ← htag]
        change ((c.active.lookup s.tid).map _).toList ++ tagAll (c.push p (.sample none s)) _ = _
        rw [hpush, hs]
        rfl

theorem Numbered.localReturn (h : Numbered c p l) (f tid t : Nat) :
    Numbered (c.localReturn p f tid t).1 (c.localReturn p f tid t).2 l ∧
      (c.localReturn p f tid t).1.sourceMode = c.sourceMode := by
  unfold Correlator.localReturn
  cases c.active.lookup tid <;> exact ⟨h.keep rfl rfl rfl rfl, rfl⟩

theorem Numbered.finish (h : Numbered c p l) (hm : c.sourceMode = false) (t : Nat) : Numbered c (c.finish p t) l := by
  simp only [Correlator.finish, hm, Bool.false_eq_true, ↓reduceIte, foldl_finishActive]
  exact h.keep rfl rfl rfl rfl

end SliceProfiler
